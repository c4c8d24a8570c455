import RustBinary.Lib.HeapTree
import RustBinary.Projections.Proof
import Mathlib.Data.Nat.Log

/-!
# The tree over the leaves

`build_tree` labels a complete binary tree (`isTree_treeLabel`) whose leaves are the leaf
hashes, and `merkle_root`, which goes through the levels, gives the label of its root
(`merkleRoot_eq`).
-/

namespace RustBinary.Projections

open Lib Lib.HeapTree

/-! ## The number of leaves -/

lemma exists_leafCount (n : ℕ) : ∃ h, leafCount n = 2 ^ h := by
  rw [leafCount, nextPowerOfTwo]
  split
  · exact ⟨0, rfl⟩
  · split
    · exact ⟨0, rfl⟩
    · exact ⟨_, rfl⟩

lemma le_leafCount (n : ℕ) : n ≤ leafCount n := by
  rw [leafCount, nextPowerOfTwo]
  split
  · omega
  · split
    · assumption
    · have := Nat.lt_log2_self (n := n - 1)
      omega

/-- The leaf count at most doubles the field count. -/
lemma leafCount_le (n : ℕ) : leafCount n ≤ 2 * n + 1 := by
  rw [leafCount, nextPowerOfTwo]
  split
  · omega
  · split
    · omega
    · have := Nat.log2_self_le (n := n - 1) (by omega)
      rw [pow_succ]
      omega

variable {node : Digest → Digest → Digest}

/-! ## `build_tree` -/

lemma length_fillTree (k : ℕ) (tree : List Digest) :
    (fillTree node k tree).length = tree.length := by
  induction k generalizing tree with
  | zero => rfl
  | succ k ih => rw [fillTree, ih, List.length_set]

lemma getD_set_ne (tree : List Digest) (x : Digest) {i j : ℕ} (hij : i ≠ j) :
    (tree.set i x).getD j zeroDigest = tree.getD j zeroDigest := by
  rw [List.getD_eq_getElem?_getD, List.getD_eq_getElem?_getD, List.getElem?_set_ne hij]

lemma getD_set_self (tree : List Digest) (x : Digest) {i : ℕ} (hi : i < tree.length) :
    (tree.set i x).getD i zeroDigest = x := by
  rw [List.getD_eq_getElem?_getD, List.getElem?_set_self hi]
  rfl

/-- The labels above node `k` stay. -/
lemma getD_fillTree_of_lt {k i : ℕ} (hki : k < i) (tree : List Digest) :
    (fillTree node k tree).getD i zeroDigest = tree.getD i zeroDigest := by
  induction k generalizing tree with
  | zero => rfl
  | succ k ih => rw [fillTree, ih (by omega), getD_set_ne tree _ (by omega)]

/-- The nodes up to `k` are labelled from their children. -/
lemma getD_fillTree {k p : ℕ} (tree : List Digest) (hlen : 2 * k + 1 < tree.length)
    (hp : 1 ≤ p) (hpk : p ≤ k) :
    (fillTree node k tree).getD p zeroDigest =
      node ((fillTree node k tree).getD (2 * p) zeroDigest)
        ((fillTree node k tree).getD (2 * p + 1) zeroDigest) := by
  induction k generalizing tree with
  | zero => omega
  | succ k ih =>
      rw [fillTree]
      rcases Nat.lt_or_ge k p with hlt | hge
      · obtain rfl : p = k + 1 := by omega
        rw [getD_fillTree_of_lt hlt, getD_fillTree_of_lt (by omega),
          getD_fillTree_of_lt (by omega), getD_set_self _ _ (by omega),
          getD_set_ne _ _ (by omega), getD_set_ne _ _ (by omega)]
      · exact ih _ (by rw [List.length_set]; omega) hge

/-- The label of a node in the tree over `leaves`. -/
def treeLabel (node : Digest → Digest → Digest) (leaves : List Digest) (i : ℕ) : Digest :=
  (buildTree node leaves).getD i zeroDigest

lemma length_buildTree (leaves : List Digest) :
    (buildTree node leaves).length = 2 * leaves.length := by
  rw [buildTree, length_fillTree, List.length_append, List.length_replicate]
  omega

/-- A node of the tree has its label. -/
lemma getElem?_buildTree {leaves : List Digest} {i : ℕ} (hi : i < 2 * leaves.length) :
    (buildTree node leaves)[i]? = some (treeLabel node leaves i) := by
  have hlt : i < (buildTree node leaves).length := by rwa [length_buildTree]
  rw [treeLabel, List.getD_eq_getElem?_getD, List.getElem?_eq_getElem hlt]
  rfl

/-- `build_tree` labels a tree. -/
lemma isTree_treeLabel (node : Digest → Digest → Digest) {leaves : List Digest} {h : ℕ}
    (hlen : leaves.length = 2 ^ h) :
    IsTree node h (treeLabel node leaves) := by
  intro p hp hlt
  refine getD_fillTree _ ?_ hp (by omega)
  rw [List.length_append, List.length_replicate]
  have : 1 ≤ leaves.length := by omega
  omega

/-- Its leaves are the given ones. -/
lemma treeLabel_leaf (node : Digest → Digest → Digest) {leaves : List Digest} {i : ℕ}
    (hi : i < leaves.length) :
    treeLabel node leaves (leaves.length + i) = leaves[i] := by
  rw [treeLabel, buildTree, getD_fillTree_of_lt (by omega), List.getD_eq_getElem?_getD,
    List.getElem?_append_right (by simp), List.length_replicate, Nat.add_sub_cancel_left,
    List.getElem?_eq_getElem hi]
  rfl

/-! ## `merkle_root` -/

/-- The labels of the `k` nodes from `m` on. -/
def labels (T : ℕ → Digest) (m k : ℕ) : List Digest := (List.range' m k).map T

/-- Hashing the pairs of a level gives the level above. -/
lemma hashPairs_labels {T : ℕ → Digest} {m k : ℕ}
    (hT : ∀ p, m ≤ p → p < m + k → T p = node (T (2 * p)) (T (2 * p + 1))) :
    hashPairs node (labels T (2 * m) (2 * k)) = labels T m k := by
  induction k generalizing m with
  | zero => rfl
  | succ k ih =>
      have hsplit : labels T (2 * m) (2 * (k + 1)) =
          T (2 * m) :: T (2 * m + 1) :: labels T (2 * (m + 1)) (2 * k) := rfl
      rw [hsplit, hashPairs, ih fun p hp hlt => hT p (by omega) (by omega),
        ← hT m (Nat.le_refl m) (by omega)]
      rfl

/-- The loop over the levels ends at the root. -/
lemma reduceLevels_labels {T : ℕ → Digest} {h d : ℕ} (hT : IsTree node h T) (hd : d ≤ h)
    {fuel : ℕ} (hfuel : d ≤ fuel) :
    reduceLevels node fuel (labels T (2 ^ d) (2 ^ d)) = [T 1] := by
  induction fuel generalizing d with
  | zero =>
      obtain rfl : d = 0 := by omega
      rfl
  | succ fuel ih =>
      rw [reduceLevels, labels, List.length_map, List.length_range']
      rcases d with _ | d
      · rfl
      · have hpos : 0 < 2 ^ d := Nat.two_pow_pos d
        rw [if_pos (by rw [pow_succ]; omega), pow_succ, Nat.mul_comm, ← labels]
        rw [hashPairs_labels, ih (by omega) (by omega)]
        intro p hp hlt
        have hle : 2 ^ (d + 1) ≤ 2 ^ h := Nat.pow_le_pow_right (by decide) hd
        exact hT p (by omega) (by rw [pow_succ] at hle; omega)

/-- `merkle_root` is the label of the root. -/
lemma merkleRoot_eq {leaves : List Digest} {h : ℕ} (hlen : leaves.length = 2 ^ h) :
    merkleRoot node leaves = treeLabel node leaves 1 := by
  have hleaves : leaves = labels (treeLabel node leaves) (2 ^ h) (2 ^ h) := by
    refine List.ext_getElem (by simp [labels, hlen]) fun i hi hi' => ?_
    simp only [labels, List.getElem_map, List.getElem_range', Nat.one_mul]
    rw [← hlen, treeLabel_leaf node hi]
  have hle : h ≤ leaves.length := by
    rw [hlen]
    exact Nat.lt_two_pow_self.le
  have hreduce := reduceLevels_labels (isTree_treeLabel node hlen) (Nat.le_refl h) hle
  rw [← hleaves] at hreduce
  rw [merkleRoot, hreduce]
  rfl

/-! ## The leaves of a record -/

lemma length_merkleLeaves (blake3 : List UInt8 → Digest) (fields : List ParsedField) :
    (merkleLeaves blake3 fields).length = leafCount fields.length := by
  have := le_leafCount fields.length
  rw [merkleLeaves, List.length_append, List.length_map, List.length_replicate]
  omega

/-- A leaf is the hash of its field, or padding behind the fields. -/
lemma getElem_merkleLeaves (blake3 : List UInt8 → Digest) (fields : List ParsedField) {i : ℕ}
    (hi : i < (merkleLeaves blake3 fields).length) :
    (∃ field, fields[i]? = some field ∧
      (merkleLeaves blake3 fields)[i] = leafHash blake3 field.fieldId field.payload) ∨
    (fields[i]? = none ∧ (merkleLeaves blake3 fields)[i] = zeroDigest) := by
  rcases Nat.lt_or_ge i fields.length with hlt | hge
  · refine .inl ⟨fields[i], List.getElem?_eq_getElem hlt, ?_⟩
    simp only [merkleLeaves]
    rw [List.getElem_append_left (by simpa using hlt), List.getElem_map]
  · refine .inr ⟨List.getElem?_eq_none hge, ?_⟩
    simp only [merkleLeaves]
    rw [List.getElem_append_right (by simpa using hge), List.getElem_replicate]

/-! ## The tree of a record -/

/-- The labels of the tree over the leaves of a record. -/
def recordLabel (blake3 : List UInt8 → Digest) (fields : List ParsedField) : ℕ → Digest :=
  treeLabel (nodeHash blake3) (merkleLeaves blake3 fields)

lemma isTree_recordLabel (blake3 : List UInt8 → Digest) {fields : List ParsedField} {h : ℕ}
    (hh : leafCount fields.length = 2 ^ h) :
    IsTree (nodeHash blake3) h (recordLabel blake3 fields) :=
  isTree_treeLabel _ (by rw [length_merkleLeaves, hh])

lemma merkleRoot_eq_recordLabel (blake3 : List UInt8 → Digest) (fields : List ParsedField) :
    merkleRoot (nodeHash blake3) (merkleLeaves blake3 fields) = recordLabel blake3 fields 1 := by
  obtain ⟨h, hh⟩ := exists_leafCount fields.length
  exact merkleRoot_eq (by rw [length_merkleLeaves, hh])

/-- The leaves of the tree are the hashes of the fields and the padding. -/
lemma recordLabel_leaf (blake3 : List UInt8 → Digest) (fields : List ParsedField) {j : ℕ}
    (hj : j < leafCount fields.length) :
    (∃ field, fields[j]? = some field ∧
      recordLabel blake3 fields (leafCount fields.length + j) =
        leafHash blake3 field.fieldId field.payload) ∨
    (fields[j]? = none ∧
      recordLabel blake3 fields (leafCount fields.length + j) = zeroDigest) := by
  have hj' : j < (merkleLeaves blake3 fields).length := by rwa [length_merkleLeaves]
  have hlabel := treeLabel_leaf (nodeHash blake3) hj'
  rw [length_merkleLeaves] at hlabel
  rw [recordLabel, hlabel]
  exact getElem_merkleLeaves blake3 fields hj'

end RustBinary.Projections
