import RustBinary.Projections.Accepted
import RustBinary.Projections.Hashing

/-!
# Soundness of verification

A proof is accepted when its leaves and siblings are combined into the root of the record.
Going down from that root, a hash without collisions on the inputs determines the labels of
each layer, so that the leaves of the proof are leaves of the record's tree
(`combineLevels_agrees`); the height of the tree is settled on the way, since a node above
the leaves never has the label of a leaf.
-/

namespace RustBinary.Projections

open Lib Lib.Outcome Lib.HeapTree

variable {blake3 : List UInt8 → Digest}

/-! ## The reconstruction -/

/-- What the reconstruction takes from the hash: among the nodes hashed for `inputs`, one that
has the label of an inner node of the tree `T` has its children, and none is a leaf. -/
structure BindsTree (blake3 : List UInt8 → Digest) (T : ℕ → Digest) (h : ℕ)
    (inputs : List (List UInt8)) : Prop where
  children : ∀ l r p, nodeInput l r ∈ inputs → 1 ≤ p → p < 2 ^ h →
    nodeHash blake3 l r = nodeHash blake3 (T (2 * p)) (T (2 * p + 1)) →
      l = T (2 * p) ∧ r = T (2 * p + 1)
  notLeaf : ∀ l r i, nodeInput l r ∈ inputs → i ∈ level h → nodeHash blake3 l r ≠ T i

/-- The inputs of the parents of a round. -/
lemma IsParents.input_mem {frontier siblings : DigestMap} {ps : List Parent}
    (h : IsParents frontier siblings frontier.keys ps) {p : ℕ} {l r : Digest}
    (hc : Combines (view frontier) (view siblings) p l r) :
    nodeInput l r ∈ ps.map fun q => nodeInput q.left q.right := by
  obtain ⟨i, hi, rfl⟩ := hasChild_iff.mp hc.1
  obtain ⟨q, hq, hindex⟩ := h.ofParent i (mem_keys_iff.mpr hi)
  have hq' := h.combines q hq
  rw [hindex] at hq'
  have hl := Option.some.inj (hq'.2.1.symm.trans hc.2.1)
  have hr := Option.some.inj (hq'.2.2.symm.trans hc.2.2)
  exact List.mem_map.mpr ⟨q, hq, by rw [hl, hr]⟩

/-- A layer that is combined into the root of a tree lies in the tree and has its labels. -/
lemma combineLevels_agrees {T : ℕ → Digest} {h : ℕ} (hT : IsTree (nodeHash blake3) h T)
    {siblings : DigestMap} {inputs : List (List UInt8)} (hb : BindsTree blake3 T h inputs)
    {fuel d i : ℕ} {frontier : DigestMap} (hF : Layer d (view frontier))
    (hne : view frontier i ≠ none)
    (hinputs : combineInputs blake3 siblings fuel frontier ⊆ inputs)
    (hok : combineLevels (nodeHash blake3) siblings fuel frontier = .ok (T 1)) :
    d ≤ h ∧ Agrees (view frontier) T := by
  induction fuel generalizing d i frontier with
  | zero => cases hok
  | succ fuel ih =>
      rw [combineLevels] at hok
      rw [combineInputs] at hinputs
      rcases d with _ | d
      · -- the frontier is the root
        obtain ⟨hstop, hhead⟩ := stops_of_layer_zero hF hne
        rw [if_pos hstop, hhead] at hok
        refine ⟨Nat.zero_le h, fun j x hx => ?_⟩
        have hj : j = 1 := mem_level_zero.mp (hF j (by rw [hx]; exact Option.some_ne_none x))
        rw [hj, okOr_eq_ok.mp hok] at hx
        rw [hj, Option.some.inj hx]
      · have hgo := not_stops_of_layer_succ hF
        rw [if_neg hgo] at hok hinputs
        obtain ⟨ps, hps, hok⟩ := bind_eq_ok.mp hok
        rw [hps] at hinputs
        obtain ⟨hround, hrest⟩ := List.append_subset.mp hinputs
        obtain ⟨hcovers, hparents⟩ := parents_eq_ok hps
        have habove := hparents.above (nodeHash blake3)
        have hparent : view (nextFrontier (nodeHash blake3) ps) (i / 2) ≠ none :=
          (habove.ne_none_iff hcovers).mpr ⟨i, hne, rfl⟩
        obtain ⟨hd, hagree⟩ := ih (habove.layer hF) hparent hrest hok
        have hlt : d < h := by
          -- otherwise the layer above would be the leaves
          refine lt_of_le_of_ne hd fun heq => ?_
          obtain ⟨y, hy⟩ := Option.ne_none_iff_exists'.mp hparent
          obtain ⟨l, r, hcomb, rfl⟩ := (habove (i / 2) y).mp hy
          refine hb.notLeaf l r (i / 2) (hround (hparents.input_mem hcomb)) ?_ (hagree _ _ hy)
          exact heq ▸ habove.layer hF _ hparent
        refine ⟨hlt, agrees_of_above hT hlt hF hcovers habove hagree ?_⟩
        intro p l r hp hcomb hnode
        exact hb.children l r p (hround (hparents.input_mem hcomb)) (one_le_of_mem_level hp)
          (lt_of_mem_level hp hlt) hnode

/-! ## The tree of a record -/

section Record

variable {record : Record} {h : ℕ}

lemma leafInput_mem_hashInputs {field : ParsedField} (h : field ∈ record.fields) :
    leafInput field.fieldId field.payload ∈ record.hashInputs blake3 :=
  List.mem_append_left _ (List.mem_append_left _ (List.mem_map.mpr ⟨field, h, rfl⟩))

lemma nodeInput_mem_hashInputs (hh : leafCount record.fields.length = 2 ^ h) {p : ℕ}
    (hp : 1 ≤ p) (hlt : p < 2 ^ h) :
    nodeInput (recordLabel blake3 record.fields (2 * p))
      (recordLabel blake3 record.fields (2 * p + 1)) ∈ record.hashInputs blake3 := by
  refine List.mem_append_left _ (List.mem_append_right _ (List.mem_map.mpr ⟨p, ?_, rfl⟩))
  rw [List.mem_range'_1, length_merkleLeaves, hh]
  omega

lemma schemaInput_mem_hashInputs :
    schemaInput record.schemaVersion (recordLabel blake3 record.fields 1) ∈
      record.hashInputs blake3 := by
  refine List.mem_append_right _ (List.mem_singleton.mpr ?_)
  rw [merkleRoot_eq_recordLabel]

/-- On inputs without a collision the hash binds the tree of the record. -/
lemma bindsTree_of_collisionFree (hh : leafCount record.fields.length = 2 ^ h)
    {inputs : List (List UInt8)} (hsub : record.hashInputs blake3 ⊆ inputs)
    (hf : CollisionFree blake3 inputs) :
    BindsTree blake3 (recordLabel blake3 record.fields) h inputs where
  children l r p hmem hp hlt hnode :=
    hf.node_inj hmem (hsub (nodeInput_mem_hashInputs hh hp hlt)) hnode
  notLeaf l r i hmem hi heq := by
    obtain ⟨j, rfl⟩ := Nat.exists_eq_add_of_le hi.1
    have hj : j < leafCount record.fields.length := by
      have := hi.2
      rw [pow_succ] at this
      omega
    rw [← hh] at heq
    rcases recordLabel_leaf blake3 record.fields hj with ⟨field, hfield, hlabel⟩ | ⟨-, hlabel⟩
    · rw [hlabel] at heq
      exact hf.node_ne_leaf hmem
        (hsub (leafInput_mem_hashInputs (List.mem_of_getElem? hfield))) heq
    · rw [hlabel] at heq
      exact hf.nonzero _ hmem heq

/-- `verify_root` compares the root of the record with the hash over its tree. -/
lemma verifyRoot_eq_ok_iff :
    record.verifyRoot blake3 = .ok () ↔
      schemaRoot blake3 record.schemaVersion (recordLabel blake3 record.fields 1) =
        record.root := by
  rw [Record.verifyRoot, require_eq_ok, merkleRoot_eq_recordLabel]

end Record

/-! ## Accepted proofs -/

/-- The inputs that an accepted proof hashes. -/
lemma Accepted.hashInputs_eq {proof : ProjectionProof} {siblings frontier : DigestMap}
    {merkle : Digest} (h : Accepted blake3 proof siblings frontier merkle) :
    proof.hashInputs blake3 =
      proof.leaves.map (fun leaf => leafInput leaf.fieldId leaf.payload) ++
        (combineInputs blake3 siblings levelRounds frontier ++
          [schemaInput proof.schemaVersion merkle]) := by
  simp only [ProjectionProof.hashInputs, h.siblings_eq, h.frontier_eq, h.combined]

/-- The nodes of the leaves make up the last level of the tree of the proof. -/
lemma Accepted.layer {proof : ProjectionProof} {siblings frontier : DigestMap} {merkle : Digest}
    (h : Accepted blake3 proof siblings frontier merkle) {d : ℕ}
    (hd : leafCount proof.fieldCount.toNat = 2 ^ d) : Layer d (view frontier) := by
  intro i hi
  obtain ⟨leaf, hleaf, rfl⟩ := (isLeafFrontier_of_eq_ok h.frontier_eq).ofLeaf i hi
  have hlt := h.canonical.index_lt leaf hleaf
  have hle := le_leafCount proof.fieldCount.toNat
  rw [hd] at hle ⊢
  refine ⟨Nat.le_add_right _ _, ?_⟩
  rw [pow_succ]
  omega

/-- The trees of an accepted proof and of the record are equally high, and the leaves of the proof
are leaves of the record's tree. -/
lemma Accepted.leaf_label {record : Record} {proof : ProjectionProof}
    {siblings frontier : DigestMap}
    (h : Accepted blake3 proof siblings frontier (recordLabel blake3 record.fields 1))
    (hf : CollisionFree blake3 (record.hashInputs blake3 ++ proof.hashInputs blake3))
    {leaf : ProofLeaf} (hleaf : leaf ∈ proof.leaves) :
    leafInput leaf.fieldId leaf.payload ∈ record.hashInputs blake3 ++ proof.hashInputs blake3 ∧
      leafCount proof.fieldCount.toNat = leafCount record.fields.length ∧
      leafHash blake3 leaf.fieldId leaf.payload
        = recordLabel blake3 record.fields
          (leafCount record.fields.length + leaf.index.toNat) := by
  obtain ⟨k, hk⟩ := exists_leafCount record.fields.length
  obtain ⟨d, hd⟩ := exists_leafCount proof.fieldCount.toNat
  have hfrontier := isLeafFrontier_of_eq_ok h.frontier_eq
  have hhash := hfrontier.hash leaf hleaf
  have hbinds := bindsTree_of_collisionFree hk (List.subset_append_left _ _) hf
  have hinputs : combineInputs blake3 siblings levelRounds frontier ⊆
      record.hashInputs blake3 ++ proof.hashInputs blake3 := by
    rw [h.hashInputs_eq]
    intro x hx
    simp [hx]
  have hleafInput : leafInput leaf.fieldId leaf.payload ∈
      record.hashInputs blake3 ++ proof.hashInputs blake3 := by
    rw [h.hashInputs_eq]
    exact List.mem_append_right _ (List.mem_append_left _ (List.mem_map.mpr ⟨leaf, hleaf, rfl⟩))
  have hne : view frontier (leafCount proof.fieldCount.toNat + leaf.index.toNat) ≠ none := by
    rw [hhash]
    exact Option.some_ne_none _
  have hcombined := h.combined
  rw [combineFrontier, if_neg (by rw [h.nonempty]; decide)] at hcombined
  obtain ⟨hdk, hagree⟩ := combineLevels_agrees (isTree_recordLabel blake3 hk) hbinds (h.layer hd) hne
    hinputs hcombined
  have hlabel := hagree _ _ hhash
  have hlevel := h.layer hd _ hne
  -- the trees are equally high: an inner node of the record's tree is not a leaf hash
  have heq : d = k := by
    refine Nat.le_antisymm hdk (Nat.le_of_not_lt fun hlt => ?_)
    have hp := one_le_of_mem_level hlevel
    have hlt' := lt_of_mem_level hlevel hlt
    rw [isTree_recordLabel blake3 hk _ hp hlt'] at hlabel
    exact hf.node_ne_leaf
      (List.mem_append_left _ (nodeInput_mem_hashInputs hk hp hlt')) hleafInput hlabel.symm
  subst heq
  rw [hd, ← hk] at hlabel
  exact ⟨hleafInput, hd.trans hk.symm, hlabel⟩

/-- The leaves of an accepted proof are fields of the record, at their positions. -/
lemma Accepted.leaf_eq {record : Record} {proof : ProjectionProof} {siblings frontier : DigestMap}
    (h : Accepted blake3 proof siblings frontier (recordLabel blake3 record.fields 1))
    (hf : CollisionFree blake3 (record.hashInputs blake3 ++ proof.hashInputs blake3)) :
    ∀ leaf ∈ proof.leaves,
      record.fields[leaf.index.toNat]? = some ⟨leaf.fieldId, leaf.payload⟩ := by
  intro leaf hleaf
  obtain ⟨hleafInput, hcount, hlabel⟩ := h.leaf_label hf hleaf
  have hlt : leaf.index.toNat < leafCount record.fields.length := by
    have := h.canonical.index_lt leaf hleaf
    have := le_leafCount proof.fieldCount.toNat
    omega
  rcases recordLabel_leaf blake3 record.fields hlt with ⟨field, hfield, hl⟩ | ⟨-, hl⟩
  · obtain ⟨hid, hpayload⟩ := hf.leaf_inj hleafInput
      (List.mem_append_left _ (leafInput_mem_hashInputs (List.mem_of_getElem? hfield)))
      (hlabel.trans hl)
    rw [hfield, hid, hpayload]
  · exact absurd (hlabel.trans hl) (hf.nonzero _ hleafInput)

/-- An accepted proof recomputes the root of the record's tree. -/
lemma Accepted.merkle_eq {record : Record} {proof : ProjectionProof}
    {siblings frontier : DigestMap} {merkle : Digest}
    (h : Accepted blake3 proof siblings frontier merkle)
    (hf : CollisionFree blake3 (record.hashInputs blake3 ++ proof.hashInputs blake3))
    (hversion : proof.schemaVersion = record.schemaVersion)
    (hroot : schemaRoot blake3 record.schemaVersion merkle =
      schemaRoot blake3 record.schemaVersion (recordLabel blake3 record.fields 1)) :
    merkle = recordLabel blake3 record.fields 1 := by
  refine (schemaInput_inj (hf.injective _ (List.mem_append_right _ ?_) _
    (List.mem_append_left _ schemaInput_mem_hashInputs) hroot)).2
  rw [h.hashInputs_eq, ← hversion]
  simp

/-- The leaves of a proof that `verify` accepts are fields of the record, at their positions. -/
lemma leaf_eq_of_verify {record : Record} (hroot : record.verifyRoot blake3 = .ok ())
    {proof : ProjectionProof}
    (hf : CollisionFree blake3 (record.hashInputs blake3 ++ proof.hashInputs blake3))
    {v : List VerifiedField}
    (hverify : verify blake3 proof record.root record.schemaVersion = .ok v) :
    ∀ leaf ∈ proof.leaves,
      record.fields[leaf.index.toNat]? = some ⟨leaf.fieldId, leaf.payload⟩ := by
  obtain ⟨hversion, -, -, siblings, frontier, merkle, haccepted, hanchor⟩ :=
    verify_eq_ok_iff.mp hverify
  rw [← verifyRoot_eq_ok_iff.mp hroot] at hanchor
  obtain rfl := haccepted.merkle_eq hf hversion hanchor
  exact haccepted.leaf_eq hf

/-- **Inclusion.** Whatever proof `verify` accepts against the root of a record, the fields it
returns are those of the proof's leaves, and each of them is the field of the record at the
position that its leaf claims.  Of the record only its root is checked. -/
theorem verify_included {record : Record} (hroot : record.verifyRoot blake3 = .ok ())
    {proof : ProjectionProof}
    (hf : CollisionFree blake3 (record.hashInputs blake3 ++ proof.hashInputs blake3))
    {v : List VerifiedField}
    (hverify : verify blake3 proof record.root record.schemaVersion = .ok v) :
    v = verifiedFields proof ∧ ∀ leaf ∈ proof.leaves,
      record.fields[leaf.index.toNat]? = some ⟨leaf.fieldId, leaf.payload⟩ := by
  exact ⟨(verify_eq_ok_iff.mp hverify).2.2.1, leaf_eq_of_verify hroot hf hverify⟩

lemma sample_verifyRoot : sampleRecord.verifyRoot sampleHash = .ok () := by decide +kernel

lemma sample_collisionFree : CollisionFree sampleHash
    (sampleRecord.hashInputs sampleHash ++ sampleProof.hashInputs sampleHash) :=
  ⟨by decide +kernel, by decide +kernel⟩

lemma sample_verify :
    verify sampleHash sampleProof sampleRoot 7 = .ok [⟨1, [0x61]⟩] := by decide +kernel

theorem verify_included_sample :
    [(⟨1, [0x61]⟩ : VerifiedField)] = verifiedFields sampleProof ∧
      ∀ leaf ∈ sampleProof.leaves,
        sampleRecord.fields[leaf.index.toNat]? = some ⟨leaf.fieldId, leaf.payload⟩ :=
  verify_included sample_verifyRoot sample_collisionFree sample_verify

end RustBinary.Projections
