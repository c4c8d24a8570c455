import RustBinary.Archive.Replay

/-!
# The tree of a payload

The levels that `merkle_levels` computes are the rows of one labelling, `treeLabel`, whose leaves
are the blocks of the payload and the padding; and the positions that `read_section_hash`
computes are those of the same nodes in the serialized section (`readSectionHash_serialize`).
-/

namespace RustBinary.Archive

open Lib Lib.Outcome

/-! ## Rows of labels -/

section Rows

variable {node : Digest → Digest → Digest} {T : ℕ → ℕ → Digest}

/-- The labels of a level of `2 ^ k` nodes. -/
def row (f : ℕ → Digest) (k : ℕ) : List Digest := (List.range (2 ^ k)).map f

@[simp] lemma length_row (f : ℕ → Digest) (k : ℕ) : (row f k).length = 2 ^ k := by simp [row]

lemma row_getElem? (f : ℕ → Digest) {k i : ℕ} (h : i < 2 ^ k) : (row f k)[i]? = some (f i) := by
  rw [row, List.getElem?_map, List.getElem?_range h]
  rfl

lemma interval_zero (b : ℕ) : interval 0 b = List.range (b + 1) := by
  rw [interval, Nat.sub_zero, List.range_eq_range']

lemma nextLevel_row (hT : IsLabelling node T) (k : ℕ) :
    nextLevel node (row (T 0) (k + 1)) = row (T 1) k := by
  have hpos : 0 < 2 ^ k := Nat.two_pow_pos k
  have hpairs : pairUp ((interval (2 * 0) (2 * (2 ^ k - 1) + 1)).map (T 0))
      = (interval 0 (2 ^ k - 1)).map fun p => (T 0 (2 * p), T 0 (2 * p + 1)) :=
    pairUp_interval (T 0) (Nat.zero_le _)
  rw [Nat.mul_zero, interval_zero, interval_zero, show 2 ^ k - 1 + 1 = 2 ^ k by omega,
    show 2 * (2 ^ k - 1) + 1 + 1 = 2 ^ (k + 1) by rw [pow_succ]; omega] at hpairs
  rw [nextLevel, row, hpairs, List.map_map, row]
  exact List.map_congr_left fun p _ => (hT 0 p).symm

lemma levelsAbove_row_succ (hT : IsLabelling node T) (k : ℕ) :
    levelsAbove node (k + 1) (row (T 0) (k + 1))
      = row (T 0) (k + 1) :: levelsAbove node k (row (T 1) k) := by
  rw [levelsAbove, nextLevel_row hT]

/-- Where a node is when the levels are laid out one behind the other. -/
lemma levelsAbove_getElem? (hT : IsLabelling node T) {k l i : ℕ} (hl : l ≤ k)
    (hi : i < 2 ^ (k - l)) :
    (levelsAbove node k (row (T 0) k)).flatten[2 ^ (k + 1) - 2 ^ (k - l + 1) + i]?
      = some (T l i) := by
  induction k generalizing T l with
  | zero =>
      obtain rfl : l = 0 := by omega
      rw [levelsAbove, List.flatten_singleton, Nat.sub_zero, Nat.sub_self, Nat.zero_add]
      exact row_getElem? (T 0) hi
  | succ k ih =>
      rw [levelsAbove_row_succ hT, List.flatten_cons]
      cases l with
      | zero =>
          rw [Nat.sub_zero, Nat.sub_self, Nat.zero_add, List.getElem?_append_left (by simpa using hi)]
          exact row_getElem? (T 0) hi
      | succ l =>
          rw [Nat.add_sub_add_right] at hi ⊢
          have hbelow : 2 ^ (k - l + 1) ≤ 2 ^ (k + 1) :=
            Nat.pow_le_pow_right (by decide) (by omega)
          have hwidth : 2 ^ (k + 1 + 1) = 2 ^ (k + 1) + 2 ^ (k + 1) := by rw [pow_succ]; omega
          rw [List.getElem?_append_right (by rw [length_row]; omega), length_row,
            show 2 ^ (k + 1 + 1) - 2 ^ (k - l + 1) + i - 2 ^ (k + 1)
              = 2 ^ (k + 1) - 2 ^ (k - l + 1) + i by omega]
          exact ih hT.shift (by omega) hi

lemma levelsAbove_length (hT : IsLabelling node T) (k : ℕ) :
    (levelsAbove node k (row (T 0) k)).flatten.length = 2 ^ (k + 1) - 1 := by
  induction k generalizing T with
  | zero => simp [levelsAbove]
  | succ k ih =>
      have hpos : 0 < 2 ^ (k + 1) := Nat.two_pow_pos _
      have hrest : (levelsAbove node k (row (T 1) k)).flatten.length = _ := ih hT.shift
      rw [levelsAbove_row_succ hT, List.flatten_cons, List.length_append, length_row, hrest,
        pow_succ 2 (k + 1)]
      omega

/-- The last level is the root. -/
lemma levelsAbove_last (hT : IsLabelling node T) (k : ℕ) :
    (levelsAbove node k (row (T 0) k)).getLast?.bind List.head? = some (T k 0) := by
  induction k generalizing T with
  | zero => rfl
  | succ k ih =>
      have hrest : (levelsAbove node k (row (T 1) k)).getLast?.bind List.head? = some (T (k + 1) 0) :=
        ih hT.shift
      obtain ⟨level, levels, hlevels⟩ : ∃ level levels,
          levelsAbove node k (row (T 1) k) = level :: levels := by
        cases k with
        | zero => exact ⟨_, _, rfl⟩
        | succ k => exact ⟨_, _, rfl⟩
      rw [levelsAbove_row_succ hT]
      rw [hlevels] at hrest ⊢
      rwa [List.getLast?_cons_cons]

end Rows

/-! ## The section on disk -/

lemma readDigest_here (before after : List UInt8) (d : Digest) :
    readDigest (before ++ (d.toList ++ after)) before.length = .ok d := by
  have hlen : d.toList.length = 32 := by simp
  rw [readDigest, dif_pos (by simp only [List.length_append, hlen]; omega), Outcome.ok.injEq,
    ← Vector.toList_inj]
  show ((before ++ (d.toList ++ after)).drop before.length).take 32 = d.toList
  rw [List.drop_left]
  exact List.take_left' hlen

/-- Reading a digest from a row of digests. -/
lemma readDigest_flatMap {ds : List Digest} {j : ℕ} {d : Digest} (h : ds[j]? = some d) :
    readDigest (ds.flatMap Vector.toList) (j * 32) = .ok d := by
  obtain ⟨hlt, rfl⟩ := List.getElem?_eq_some_iff.mp h
  have hsplit : ds = ds.take j ++ ds[j] :: ds.drop (j + 1) := by simp
  have hbefore : ((ds.take j).flatMap Vector.toList).length = j * 32 := by
    simp [List.length_flatMap, hlt.le]
  have hread := readDigest_here ((ds.take j).flatMap Vector.toList)
    ((ds.drop (j + 1)).flatMap Vector.toList) ds[j]
  rwa [hbefore, ← List.flatMap_cons, ← List.flatMap_append, ← hsplit] at hread

/-- `read_section_hash` on the serialized levels gives the labels of the nodes. -/
lemma readSectionHash_serialize {node : Digest → Digest → Digest} {T : ℕ → ℕ → Digest}
    (hT : IsLabelling node T) {h l i : ℕ} (hpos : 0 < l) (hl : l ≤ h) (hi : i < 2 ^ (h - l)) :
    readSectionHash (serializeHashSection (levelsAbove node h (row (T 0) h))) (2 ^ h) h l i
      = .ok (T l i) := by
  obtain ⟨k, rfl⟩ : ∃ k, h = k + 1 := ⟨h - 1, by omega⟩
  obtain ⟨m, rfl⟩ : ∃ m, l = m + 1 := ⟨l - 1, by omega⟩
  rw [Nat.add_sub_add_right] at hi
  rw [readSectionHash, serializeHashSection, levelsAbove_row_succ hT, List.drop_succ_cons,
    List.drop_zero, Nat.add_sub_add_right]
  exact readDigest_flatMap (levelsAbove_getElem? hT.shift (by omega) hi)

/-! ## The labels of a payload -/

/-- The bytes of a block. -/
def blockBytes (payload : List UInt8) (blockSize index : ℕ) : List UInt8 :=
  (payload.drop (index * blockSize)).take blockSize

lemma blockAt_eq (payload : List UInt8) (blockSize index : ℕ) :
    blockAt payload blockSize index =
      if index * blockSize ≤ payload.length then .ok (blockBytes payload blockSize index)
      else .panic := by
  rw [blockAt, slice]
  split
  · next h =>
      rw [if_pos (by omega), orPanic_some, Outcome.ok.injEq, blockBytes,
        List.take_eq_take_iff, List.length_drop]
      omega
  · next h =>
      rw [if_neg (by omega)]
      rfl

/-- The number of blocks of a payload. -/
def blockTotal (payloadLen blockSize : ℕ) : ℕ := max ((payloadLen + (blockSize - 1)) / blockSize) 1

lemma lt_ceil_iff {n d i : ℕ} (hd : 0 < d) : i < (n + (d - 1)) / d ↔ i * d < n := by
  rw [← Nat.succ_le_iff, Nat.le_div_iff_mul_le hd, Nat.succ_mul]
  omega

lemma mul_le_of_lt_blockTotal {n d i : ℕ} (hd : 0 < d) (h : i < blockTotal n d) : i * d ≤ n := by
  rcases Nat.eq_zero_or_pos i with rfl | hpos
  · rw [Nat.zero_mul]
    exact Nat.zero_le n
  · have hlt : i < (n + (d - 1)) / d := by
      rw [blockTotal] at h
      omega
    exact ((lt_ceil_iff hd).mp hlt).le

section Labels

variable (blake3 : List UInt8 → Digest) (payload : List UInt8) (blockSize blockCount : ℕ)

/-- The label of a leaf. -/
def leafLabel (index : ℕ) : Digest :=
  if index < blockCount then leafHash blake3 index (blockBytes payload blockSize index)
  else padHash blake3 index

/-- The labels of the tree of a payload, by level from the leaves and index. -/
def treeLabel : ℕ → ℕ → Digest :=
  labelAbove (nodeHash blake3) (leafLabel blake3 payload blockSize blockCount)

lemma isLabelling_treeLabel :
    IsLabelling (nodeHash blake3) (treeLabel blake3 payload blockSize blockCount) :=
  isLabelling_labelAbove _ _

variable {blake3 payload blockSize blockCount}

lemma leafHashFor_of {index : ℕ} (h : index < blockCount → index * blockSize ≤ payload.length) :
    leafHashFor blake3 payload blockSize blockCount index
      = .ok (leafLabel blake3 payload blockSize blockCount index) := by
  rw [leafHashFor, leafLabel]
  split
  · next hlt =>
      rw [blockAt_eq, if_pos (h hlt)]
      rfl
  · rfl

/-- What `merkle_levels` computes. -/
lemma merkleLevels_eq_ok {levels : List (List Digest)} :
    merkleLevels blake3 payload blockSize = .ok (levels, blockCount) ↔
      0 < blockSize ∧ blockCount = blockTotal payload.length blockSize ∧
        ∃ height, treeHeight blockCount = .ok height ∧
          levels = levelsAbove (nodeHash blake3) height
            (row (treeLabel blake3 payload blockSize blockCount 0) height) := by
  rw [merkleLevels, divCeil]
  split
  · next h =>
      simp only [panic_bind, reduceCtorEq, false_iff]
      omega
  · next h =>
      have hpos : 0 < blockSize := Nat.pos_of_ne_zero h
      have hlevel : ∀ height, mapAll (leafHashFor blake3 payload blockSize
          (blockTotal payload.length blockSize)) (List.range (2 ^ height))
          = .ok (row (treeLabel blake3 payload blockSize
            (blockTotal payload.length blockSize) 0) height) := fun height =>
        mapAll_of fun i _ => leafHashFor_of (mul_le_of_lt_blockTotal hpos)
      show treeHeight (blockTotal payload.length blockSize) >>= _ = _ ↔ _
      rw [bind_eq_ok]
      constructor
      · rintro ⟨height, hheight, hrest⟩
        rw [show max ((payload.length + (blockSize - 1)) / blockSize) 1
          = blockTotal payload.length blockSize from rfl, hlevel] at hrest
        obtain ⟨rfl, rfl⟩ := Prod.mk.inj (Outcome.ok.inj hrest)
        exact ⟨hpos, rfl, height, hheight, rfl⟩
      · rintro ⟨-, rfl, height, hheight, rfl⟩
        refine ⟨height, hheight, ?_⟩
        rw [show max ((payload.length + (blockSize - 1)) / blockSize) 1
          = blockTotal payload.length blockSize from rfl, hlevel]
        rfl

end Labels

end RustBinary.Archive
