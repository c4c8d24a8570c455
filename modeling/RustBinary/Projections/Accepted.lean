import RustBinary.Projections.Frontier
import RustBinary.Projections.Parsed

/-!
# What an accepted proof has gone through

`verify` succeeds exactly when the checks on the leaves and on the siblings pass, the leaves
make a frontier and the frontier is combined into a root that hashes to the anchor
(`verify_eq_ok_iff`).  The frontier has the hash of each leaf at the node of its position and
nothing else (`leafFrontier_eq_ok`).
-/

namespace RustBinary.Projections

open Lib Lib.Outcome Lib.HeapTree

variable {blake3 : List UInt8 → Digest}

/-! ## The leaves in order -/

/-- `leaf` may come after a leaf at `prev`. -/
def LeafFollows (prev leaf : ProofLeaf) : Prop :=
  prev.index < leaf.index ∧ prev.fieldId < leaf.fieldId

/-- The leaves of a canonical proof have positions below `n` and increase. -/
structure CanonicalLeaves (n : ℕ) (leaves : List ProofLeaf) : Prop where
  index_lt : ∀ leaf ∈ leaves, leaf.index.toNat < n
  increasing : leaves.IsChain LeafFollows

lemma checkLeaves_eq_ok_iff {n : ℕ} {prev : Option ProofLeaf} {leaves : List ProofLeaf} :
    checkLeaves n prev leaves = .ok () ↔
      (∀ leaf ∈ leaves, leaf.index.toNat < n) ∧ (prev.toList ++ leaves).IsChain LeafFollows := by
  induction leaves generalizing prev with
  | nil => cases prev <;> simp [checkLeaves]
  | cons leaf leaves ih =>
      simp only [checkLeaves, bind_eq_ok, require_eq_ok, exists_const, ih, List.forall_mem_cons]
      cases prev with
      | none =>
          simp [follows_none, and_assoc]
      | some prev =>
          simp only [Option.map_some, follows_some, Option.toList_some, List.cons_append,
            List.nil_append, List.isChain_cons_cons, LeafFollows]
          tauto

lemma checkLeaves_none_eq_ok_iff {n : ℕ} {leaves : List ProofLeaf} :
    checkLeaves n none leaves = .ok () ↔ CanonicalLeaves n leaves := by
  rw [checkLeaves_eq_ok_iff]
  exact ⟨fun h => ⟨h.1, h.2⟩, fun h => ⟨h.index_lt, h.increasing⟩⟩

lemma CanonicalLeaves.nodup {n : ℕ} {leaves : List ProofLeaf} (h : CanonicalLeaves n leaves) :
    (leaves.map fun leaf => leaf.index.toNat).Nodup := by
  have hlt : (leaves.map ProofLeaf.index).IsChain (· < ·) :=
    (List.isChain_map _).mpr (h.increasing.imp fun _ _ hf => hf.1)
  have hpair : leaves.Pairwise fun a b => a.index < b.index := List.pairwise_map.mp hlt.pairwise
  exact List.pairwise_map.mpr (hpair.imp fun hab => (UInt32.lt_iff_toNat_lt.mp hab).ne)

/-! ## The frontier of the leaves -/

lemma view_insert {m : DigestMap} {i j : ℕ} {x : Digest} :
    view (m.insert i x) j = if i = j then some x else view m j := by
  rw [view, view, Std.TreeMap.getElem?_insert]
  simp only [Nat.compare_eq_eq]

lemma view_empty (i : ℕ) : view ∅ i = none := Std.TreeMap.getElem?_emptyc

/-- The frontier of the leaves, read off the leaves. -/
structure IsLeafFrontier (blake3 : List UInt8 → Digest) (n : ℕ) (leaves : List ProofLeaf)
    (frontier : DigestMap) : Prop where
  hash : ∀ leaf ∈ leaves,
    view frontier (n + leaf.index.toNat) = some (leafHash blake3 leaf.fieldId leaf.payload)
  ofLeaf : ∀ i, view frontier i ≠ none → ∃ leaf ∈ leaves, i = n + leaf.index.toNat

lemma leafFrontier_eq_ok {n size : ℕ} {leaves : List ProofLeaf} {frontier out : DigestMap}
    (h : leafFrontier blake3 n size leaves frontier = .ok out) :
    (∀ i, view frontier i ≠ none → view out i = view frontier i) ∧
    (∀ leaf ∈ leaves,
      view out (n + leaf.index.toNat) = some (leafHash blake3 leaf.fieldId leaf.payload)) ∧
    ∀ i, view out i ≠ none →
      view frontier i ≠ none ∨ ∃ leaf ∈ leaves, i = n + leaf.index.toNat := by
  induction leaves generalizing frontier with
  | nil =>
      cases h
      exact ⟨fun _ _ => rfl, nofun, fun _ hi => .inl hi⟩
  | cons leaf leaves ih =>
      obtain ⟨node, hnode, h⟩ := bind_eq_ok.mp h
      obtain ⟨_, hsize, h⟩ := bind_eq_ok.mp h
      obtain ⟨_, hfree, h⟩ := bind_eq_ok.mp h
      have hnode : node = n + leaf.index.toNat := by
        have hadd := okOr_eq_ok.mp hnode
        rw [checkedAdd] at hadd
        split at hadd
        · exact (Option.some.inj hadd).symm
        · cases hadd
      subst hnode
      have hnone : view frontier (n + leaf.index.toNat) = none :=
        Std.TreeMap.getElem?_eq_none_of_contains_eq_false (require_eq_ok.mp hfree)
      obtain ⟨hkeep, hhash, hof⟩ := ih h
      refine ⟨fun i hi => ?_, List.forall_mem_cons.mpr ⟨?_, hhash⟩, fun i hi => ?_⟩
      · have hne : n + leaf.index.toNat ≠ i := fun heq => hi (heq ▸ hnone)
        have hview := hkeep i (by rwa [view_insert, if_neg hne])
        rwa [view_insert, if_neg hne] at hview
      · have hview := hkeep (n + leaf.index.toNat) (by rw [view_insert, if_pos rfl]; simp)
        rwa [view_insert, if_pos rfl] at hview
      · rcases hof i hi with hview | ⟨leaf', hmem, heq⟩
        · rw [view_insert] at hview
          split at hview
          · next heq => exact .inr ⟨leaf, List.mem_cons_self, heq.symm⟩
          · exact .inl hview
        · exact .inr ⟨leaf', List.mem_cons_of_mem _ hmem, heq⟩

/-- Distinct positions inside the tree make a frontier. -/
lemma exists_leafFrontier {n size : ℕ} {leaves : List ProofLeaf} {frontier : DigestMap}
    (hsize : size ≤ u64Max) (hlt : ∀ leaf ∈ leaves, n + leaf.index.toNat < size)
    (hnodup : (leaves.map fun leaf => leaf.index.toNat).Nodup)
    (hfree : ∀ leaf ∈ leaves, view frontier (n + leaf.index.toNat) = none) :
    ∃ out, leafFrontier blake3 n size leaves frontier = .ok out := by
  induction leaves generalizing frontier with
  | nil => exact ⟨frontier, rfl⟩
  | cons leaf leaves ih =>
      obtain ⟨hleaf, hlt⟩ := List.forall_mem_cons.mp hlt
      obtain ⟨hnone, hfree⟩ := List.forall_mem_cons.mp hfree
      obtain ⟨hnew, hnodup⟩ := List.nodup_cons.mp hnodup
      have hcontains : frontier.contains (n + leaf.index.toNat) = false := by
        rw [Std.TreeMap.contains_eq_isSome_getElem?,
          show frontier[n + leaf.index.toNat]? = none from hnone]
        rfl
      have hadd : checkedAdd n leaf.index.toNat = some (n + leaf.index.toNat) :=
        if_pos (by omega)
      have hfree' : ∀ leaf' ∈ leaves, view (frontier.insert (n + leaf.index.toNat)
          (leafHash blake3 leaf.fieldId leaf.payload)) (n + leaf'.index.toNat) = none := by
        intro leaf' hmem
        rw [view_insert, if_neg, hfree leaf' hmem]
        intro heq
        exact hnew (List.mem_map.mpr ⟨leaf', hmem, (Nat.add_left_cancel heq).symm⟩)
      obtain ⟨out, hout⟩ := ih hlt hnodup hfree'
      refine ⟨out, ?_⟩
      rw [leafFrontier, hadd, okOr_some, ok_bind, require_of hleaf, ok_bind,
        require_of hcontains, ok_bind, hout]

lemma isLeafFrontier_of_eq_ok {n size : ℕ} {leaves : List ProofLeaf} {frontier : DigestMap}
    (h : leafFrontier blake3 n size leaves ∅ = .ok frontier) :
    IsLeafFrontier blake3 n leaves frontier := by
  obtain ⟨-, hhash, hof⟩ := leafFrontier_eq_ok h
  exact ⟨hhash, fun i hi => (hof i hi).resolve_left fun hne => hne (view_empty i)⟩

/-! ## `verify` -/

/-- The checks that `recompute_proof_root` makes and the values it goes through. -/
structure Accepted (blake3 : List UInt8 → Digest) (proof : ProjectionProof)
    (siblings frontier : DigestMap) (merkle : Digest) : Prop where
  size_le : leafCount proof.fieldCount.toNat * 2 ≤ u64Max
  canonical : CanonicalLeaves proof.fieldCount.toNat proof.leaves
  siblings_eq : siblingMap proof.siblings = .ok siblings
  frontier_eq : leafFrontier blake3 (leafCount proof.fieldCount.toNat)
    (leafCount proof.fieldCount.toNat * 2) proof.leaves ∅ = .ok frontier
  nonempty : frontier.isEmpty = false
  combined : combineFrontier (nodeHash blake3) frontier siblings = .ok merkle

lemma recomputeProofRoot_eq_ok_iff {proof : ProjectionProof} {root : Digest} :
    recomputeProofRoot blake3 proof = .ok root ↔
      ∃ siblings frontier merkle, Accepted blake3 proof siblings frontier merkle ∧
        schemaRoot blake3 proof.schemaVersion merkle = root := by
  constructor
  · intro h
    obtain ⟨_, hsize, h⟩ := bind_eq_ok.mp h
    obtain ⟨_, hleaves, h⟩ := bind_eq_ok.mp h
    obtain ⟨siblings, hsiblings, h⟩ := bind_eq_ok.mp h
    obtain ⟨frontier, hfrontier, h⟩ := bind_eq_ok.mp h
    obtain ⟨_, hne, h⟩ := bind_eq_ok.mp h
    obtain ⟨merkle, hmerkle, h⟩ := bind_eq_ok.mp h
    cases h
    exact ⟨siblings, frontier, merkle, ⟨require_eq_ok.mp hsize,
      checkLeaves_none_eq_ok_iff.mp hleaves, hsiblings, hfrontier, require_eq_ok.mp hne, hmerkle⟩,
      rfl⟩
  · rintro ⟨siblings, frontier, merkle, h, rfl⟩
    rw [recomputeProofRoot]
    simp only [require_of h.size_le, ok_bind, checkLeaves_none_eq_ok_iff.mpr h.canonical,
      h.siblings_eq, h.frontier_eq, require_of h.nonempty, h.combined, pure_eq_ok]

/-- `verify` accepts the proofs whose recomputed root is the claimed one and the anchor. -/
lemma verify_eq_ok_iff {proof : ProjectionProof} {anchor : Digest} {version : UInt32}
    {v : List VerifiedField} :
    verify blake3 proof anchor version = .ok v ↔
      proof.schemaVersion = version ∧ proof.claimedRoot = anchor ∧ v = verifiedFields proof ∧
        ∃ siblings frontier merkle, Accepted blake3 proof siblings frontier merkle ∧
          schemaRoot blake3 version merkle = anchor := by
  constructor
  · intro h
    obtain ⟨_, hversion, h⟩ := bind_eq_ok.mp h
    obtain ⟨root, hroot, h⟩ := bind_eq_ok.mp h
    obtain ⟨_, heq, h⟩ := bind_eq_ok.mp h
    cases h
    obtain rfl := require_eq_ok.mp hversion
    obtain ⟨hclaimed, rfl⟩ := require_eq_ok.mp heq
    exact ⟨rfl, hclaimed.symm, rfl, recomputeProofRoot_eq_ok_iff.mp hroot⟩
  · rintro ⟨rfl, rfl, rfl, haccepted⟩
    rw [verify, require_of rfl, ok_bind, recomputeProofRoot_eq_ok_iff.mpr haccepted, ok_bind,
      require_of ⟨rfl, rfl⟩]
    rfl

end RustBinary.Projections
