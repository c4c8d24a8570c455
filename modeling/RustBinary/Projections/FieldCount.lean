import RustBinary.Projections.Completeness
import RustBinary.Projections.Soundness

/-!
# The field count of a proof

A proof says how many fields the record has.  The number is not hashed: the verification takes
from it how high the tree is and which positions are within the record.  So the root binds the
number of leaves, a power of two, and between two powers a proof may claim any number
(`fieldCount_authentic_iff`).
-/

namespace RustBinary.Projections

open Lib Lib.Outcome Lib.HeapTree

variable {blake3 : List UInt8 → Digest}

/-! ## Numbers with one leaf count -/

lemma leafCount_of_two_le {n : ℕ} (h : 2 ≤ n) : leafCount n = 2 ^ (Nat.log2 (n - 1) + 1) := by
  rw [leafCount, if_neg (by omega), nextPowerOfTwo, if_neg (by omega)]

/-- One field and two fields have a leaf count of their own. -/
lemma eq_of_leafCount_eq {m n : ℕ} (hm : 0 < m) (hn : 0 < n) (h2 : n ≤ 2)
    (h : leafCount m = leafCount n) : m = n := by
  have hle := le_leafCount m
  obtain rfl | rfl : n = 1 ∨ n = 2 := by omega
  · rw [h, show leafCount 1 = 1 by decide] at hle
    omega
  · rw [h, show leafCount 2 = 2 by decide] at hle
    obtain rfl | rfl : m = 1 ∨ m = 2 := by omega
    · exact absurd h (by decide)
    · rfl

/-- From three fields on there is another number with the same leaf count. -/
lemma exists_leafCount_eq {n : ℕ} (h : 3 ≤ n) (hlt : n < 2 ^ 32) :
    ∃ m, 0 < m ∧ m < 2 ^ 32 ∧ m ≠ n ∧ leafCount m = leafCount n := by
  rw [leafCount_of_two_le (by omega)]
  obtain ⟨j, hj⟩ : ∃ j, Nat.log2 (n - 1) = j := ⟨_, rfl⟩
  obtain ⟨hge, hub⟩ := (Nat.log2_eq_iff (by omega)).mp hj
  rw [hj]
  have hj0 : j ≠ 0 := by
    rintro rfl
    omega
  have hpow : 2 ^ 1 ≤ 2 ^ j := Nat.pow_le_pow_right (by decide) (by omega)
  by_cases hbelow : 2 ^ j ≤ n - 2
  · refine ⟨n - 1, by omega, by omega, by omega, ?_⟩
    have hlog : Nat.log2 (n - 1 - 1) = j :=
      (Nat.log2_eq_iff (by omega)).mpr ⟨by omega, by omega⟩
    rw [leafCount_of_two_le (by omega), hlog]
  · -- the number below `n` is a power of two, so the number above has not reached the next one
    have hj32 : j < 32 := (Nat.pow_lt_pow_iff_right (by decide)).mp (hge.trans_lt (by omega))
    have hpow31 : 2 ^ j ≤ 2 ^ 31 := Nat.pow_le_pow_right (by decide) (by omega)
    refine ⟨n + 1, by omega, by omega, by omega, ?_⟩
    have hlog : Nat.log2 (n + 1 - 1) = j := by
      refine (Nat.log2_eq_iff (by omega)).mpr ⟨by omega, ?_⟩
      rw [pow_succ] at hub ⊢
      omega
    rw [leafCount_of_two_le (by omega), hlog]

/-! ## What the proof of a record hashes -/

/-- Over labels of a tree the loop of `combine_frontier` hashes nodes of the tree. -/
lemma combineInputs_of_agrees {T : ℕ → Digest} {h : ℕ} (hT : IsTree (nodeHash blake3) h T)
    {siblings : DigestMap} (hS : Agrees (view siblings) T) {fuel d i : ℕ} (hd : d ≤ h)
    {frontier : DigestMap} (hF : Layer d (view frontier)) (hagree : Agrees (view frontier) T)
    (hne : view frontier i ≠ none) :
    ∀ input ∈ combineInputs blake3 siblings fuel frontier,
      ∃ p, 1 ≤ p ∧ p < 2 ^ h ∧ nodeInput (T (2 * p)) (T (2 * p + 1)) = input := by
  induction fuel generalizing d i frontier with
  | zero => nofun
  | succ fuel ih =>
      intro input hinput
      rw [combineInputs] at hinput
      rcases d with _ | d
      · rw [if_pos (stops_of_layer_zero hF hne).1] at hinput
        cases hinput
      · rw [if_neg (not_stops_of_layer_succ hF)] at hinput
        split at hinput
        · next ps hps =>
            obtain ⟨hcovers, hparents⟩ := parents_eq_ok hps
            have habove := hparents.above (nodeHash blake3)
            rcases List.mem_append.mp hinput with hround | hrest
            · obtain ⟨q, hq, rfl⟩ := List.mem_map.mp hround
              obtain ⟨hchild, hl, hr⟩ := hparents.combines q hq
              obtain ⟨j, hj, hindex⟩ := hasChild_iff.mp hchild
              have hlevel : q.index ∈ level d := hindex ▸ mem_level_succ.mp (hF j hj)
              have hlabel : Agrees (label (view frontier) (view siblings)) T := by
                intro k x hx
                rcases Option.or_eq_some_iff.mp hx with hx | ⟨-, hx⟩
                · exact hagree k x hx
                · exact hS k x hx
              refine ⟨q.index, one_le_of_mem_level hlevel, lt_of_mem_level hlevel hd, ?_⟩
              rw [hlabel _ _ hl, hlabel _ _ hr]
            · have hnext : Agrees (view (nextFrontier (nodeHash blake3) ps)) T :=
                above_agrees hT hd hF hagree (fun k x _ _ hx => hS k x hx) habove
              have hparent : view (nextFrontier (nodeHash blake3) ps) (i / 2) ≠ none :=
                (habove.ne_none_iff hcovers).mpr ⟨i, hne, rfl⟩
              exact ih (Nat.le_of_succ_le hd) (habove.layer hF) hnext hparent input hrest
        · cases hinput

/-- The proof of a record hashes nothing that the record does not hash. -/
lemma Accepted.hashInputs_subset {record : Record} (hc : record.Canonical) {query : Projection}
    {proof : ProjectionProof} {siblings frontier : DigestMap}
    (h : Accepted blake3 proof siblings frontier (recordLabel blake3 record.fields 1))
    (hversion : proof.schemaVersion = record.schemaVersion)
    (hcount : leafCount proof.fieldCount.toNat = leafCount record.fields.length)
    (hleaves : proof.leaves = Record.selectedLeaves query 0 record.fields)
    (hS : Agrees (view siblings) (recordLabel blake3 record.fields)) :
    proof.hashInputs blake3 ⊆ record.hashInputs blake3 := by
  obtain ⟨k, hk⟩ := exists_leafCount record.fields.length
  have hfrontier := isLeafFrontier_of_eq_ok h.frontier_eq
  rw [hcount, hleaves] at hfrontier
  have hlabels := labels_of_leafFrontier hc hfrontier
  obtain ⟨i, hi⟩ := Std.TreeMap.isEmpty_eq_false_iff_exists_mem.mp h.nonempty
  intro input hinput
  rw [h.hashInputs_eq] at hinput
  rcases List.mem_append.mp hinput with hmem | hrest
  · rw [hleaves] at hmem
    obtain ⟨leaf, hleaf, rfl⟩ := List.mem_map.mp hmem
    obtain ⟨j, hj, -⟩ := selectedLeaves_spec
      (by rw [Nat.zero_add]; exact hc.length_lt.le) leaf hleaf
    exact leafInput_mem_hashInputs (List.mem_of_getElem? hj)
  · rcases List.mem_append.mp hrest with hnode | hroot
    · obtain ⟨p, hp, hlt, rfl⟩ := combineInputs_of_agrees (isTree_recordLabel blake3 hk) hS
        (Nat.le_refl k) (h.layer (hcount.trans hk)) hlabels.agrees (view_ne_none_iff.mpr hi)
        input hnode
      exact nodeInput_mem_hashInputs hk hp hlt
    · rw [List.mem_singleton.mp hroot, hversion]
      exact schemaInput_mem_hashInputs

/-! ## A proof with another field count -/

/-- The identifiers of selected leaves are in the query. -/
lemma contains_of_mem_selectedLeaves {query : Projection} {k : ℕ} {fields : List ParsedField}
    {leaf : ProofLeaf} (h : leaf ∈ Record.selectedLeaves query k fields) :
    query.contains leaf.fieldId := by
  have hmem : (⟨leaf.fieldId, leaf.payload⟩ : VerifiedField) ∈ projectFields query fields := by
    rw [← map_selectedLeaves query k fields]
    exact List.mem_map.mpr ⟨leaf, h, rfl⟩
  obtain ⟨field, hfield, heq⟩ := List.mem_map.mp hmem
  rw [← (VerifiedField.mk.inj heq).1]
  exact (List.mem_filter.mp hfield).2

/-- The query for one field. -/
def queryOf (id : FieldId) : Projection := ⟨[id], List.pairwise_singleton _ _⟩

lemma contains_queryOf {id x : FieldId} : (queryOf id).contains x ↔ x = id := by
  rw [Projection.contains, List.contains_iff_mem]
  exact List.mem_singleton

/-- The proof of the first field can have every field count with the leaf count of the record. -/
lemma exists_verify_of_leafCount_eq (blake3 : List UInt8 → Digest) {record : Record}
    (hc : record.Canonical) (hn : 0 < record.fields.length) {m : ℕ} (hm : 0 < m)
    (hlt : m < 2 ^ 32) (hcount : leafCount m = leafCount record.fields.length) :
    ∃ proof v, proof.fieldCount.toNat = m ∧
      proof.hashInputs blake3 ⊆ record.hashInputs blake3 ∧
      verify blake3 proof
        (schemaRoot blake3 record.schemaVersion (recordLabel blake3 record.fields 1))
        record.schemaVersion = .ok v := by
  obtain ⟨first, hfirst⟩ : ∃ first, record.fields[0]? = some first :=
    ⟨_, List.getElem?_eq_getElem hn⟩
  have hselect : ∃ field ∈ record.fields,
      (queryOf first.fieldId).contains field.fieldId :=
    ⟨first, List.mem_of_getElem? hfirst, contains_queryOf.mpr rfl⟩
  obtain ⟨proof, siblings, frontier, d, -, hupto, hversion, hlength, hleaves, hclaimed, h⟩ :=
    exists_proof blake3 hc hselect
  have hm' : (UInt32.ofNat m).toNat = m := UInt32.toNat_ofNat_of_lt' hlt
  -- the leaf is at position `0`, which is below every count
  have hposition : ∀ leaf ∈ proof.leaves, leaf.index.toNat = 0 := by
    intro leaf hleaf
    rw [hleaves] at hleaf
    obtain ⟨j, hj, hindex⟩ := selectedLeaves_spec
      (by rw [Nat.zero_add]; exact hc.length_lt.le) leaf hleaf
    have hid := contains_queryOf.mp (contains_of_mem_selectedLeaves hleaf)
    have hj0 : j = 0 := hc.index_inj hj hfirst hid
    rw [hindex, hj0]
  have haccepted : Accepted blake3 { proof with fieldCount := UInt32.ofNat m } siblings frontier
      (recordLabel blake3 record.fields 1) := by
    have hsize := h.size_le
    have hfrontier := h.frontier_eq
    rw [hlength] at hsize hfrontier
    constructor
    · rwa [hm', hcount]
    · refine ⟨fun leaf hleaf => ?_, h.canonical.increasing⟩
      rwa [hposition leaf hleaf, hm']
    · exact h.siblings_eq
    · rwa [hm', hcount]
    · exact h.nonempty
    · exact h.combined
  refine ⟨{ proof with fieldCount := UInt32.ofNat m }, _, hm', ?_,
    verify_eq_ok_iff.mpr ⟨hversion, hclaimed, rfl, siblings, frontier, _, haccepted, rfl⟩⟩
  refine haccepted.hashInputs_subset hc hversion (by rw [hm', hcount]) hleaves fun i x hx => ?_
  obtain ⟨s, hs, rfl, rfl⟩ := mem_of_siblingMap hupto.nodup h.siblings_eq hx
  exact hupto.hash s hs

/-! ## The field count of a verified proof -/

/-- A proof that `verify` accepts has the leaf count of the record, which has a field. -/
lemma leafCount_of_verify {record : Record} {proof : ProjectionProof}
    (hf : CollisionFree blake3 (record.hashInputs blake3 ++ proof.hashInputs blake3))
    {v : List VerifiedField}
    (hverify : verify blake3 proof
      (schemaRoot blake3 record.schemaVersion (recordLabel blake3 record.fields 1))
      record.schemaVersion = .ok v) :
    0 < proof.fieldCount.toNat ∧ 0 < record.fields.length ∧
      leafCount proof.fieldCount.toNat = leafCount record.fields.length := by
  obtain ⟨hversion, -, -, siblings, frontier, merkle, h, hanchor⟩ := verify_eq_ok_iff.mp hverify
  obtain rfl := h.merkle_eq hf hversion hanchor
  obtain ⟨i, hi⟩ := Std.TreeMap.isEmpty_eq_false_iff_exists_mem.mp h.nonempty
  obtain ⟨leaf, hleaf, -⟩ :=
    (isLeafFrontier_of_eq_ok h.frontier_eq).ofLeaf i (view_ne_none_iff.mpr hi)
  have hfield := (List.getElem?_eq_some_iff.mp (h.leaf_eq hf leaf hleaf)).1
  exact ⟨Nat.zero_lt_of_lt (h.canonical.index_lt leaf hleaf), Nat.zero_lt_of_lt hfield,
    (h.leaf_label hf hleaf).2.1⟩

def thirdLeaf : Digest :=
  #v[229, 101, 244, 152, 223, 100, 199, 134, 98, 184, 111, 66, 194, 103, 206, 40, 253, 79, 108,
    212, 233, 140, 220, 23, 41, 31, 129, 146, 47, 170, 228, 235]

/-- The hash of the third leaf and the padding. -/
def thirdNode : Digest :=
  #v[114, 102, 3, 123, 155, 255, 13, 12, 124, 18, 5, 81, 209, 80, 60, 2, 43, 61, 208, 35, 166,
    234, 31, 70, 177, 249, 219, 9, 49, 183, 21, 11]

def threeMerkle : Digest :=
  #v[185, 16, 224, 245, 232, 9, 216, 88, 197, 77, 138, 99, 189, 141, 173, 175, 15, 59, 128, 210,
    74, 82, 93, 125, 185, 211, 146, 81, 202, 110, 176, 129]

def threeRoot : Digest :=
  #v[51, 221, 66, 159, 51, 17, 173, 235, 29, 202, 148, 37, 218, 44, 199, 105, 70, 153, 14, 245,
    95, 81, 58, 169, 146, 197, 63, 225, 182, 153, 99, 179]

/-- The hash on the inputs of the record. -/
def threeHash (input : List UInt8) : Digest :=
  if input = leafInput 3 [0x63] then thirdLeaf
  else if input = nodeInput thirdLeaf zeroDigest then thirdNode
  else if input = nodeInput sampleMerkle thirdNode then threeMerkle
  else if input = schemaInput 7 threeMerkle then threeRoot
  else sampleHash input

set_option maxRecDepth 100000 in
example : ∀ input ∈ [leafInput 3 [0x63], nodeInput thirdLeaf zeroDigest,
    nodeInput sampleMerkle thirdNode, schemaInput 7 threeMerkle],
    threeHash input = Hash.digest input := by
  decide +kernel

def threeRecord : Record := ⟨7, sampleFields ++ [⟨3, [0x63]⟩], threeRoot⟩

/-- The record with three fields, as bytes. -/
def threeInput : Input where
  bytes := magic ++ [1, 0, 1, 0, 3, 0, 0, 0, 7, 0, 0, 0] ++
    [1, 0, 0, 0, 1, 0, 0, 0, 0x61] ++ [2, 0, 0, 0, 1, 0, 0, 0, 0x62] ++
    [3, 0, 0, 0, 1, 0, 0, 0, 0x63] ++ threeRoot.toList
  length_le := by decide

/-- The proof of the first field, with one field too many. -/
def forgedProof : ProjectionProof where
  schemaVersion := 7
  fieldCount := 4
  leaves := [⟨0, 1, [0x61]⟩]
  siblings := [⟨5, sampleLeaf₂⟩, ⟨3, thirdNode⟩]
  claimedRoot := threeRoot

end RustBinary.Projections
