import Mathlib.Tactic.Common

/-!
# Registers of byte lanes

A vector register is its lanes, the one of the lowest address first, and an instruction works on
every lane alike.  A comparison leaves a lane of ones or of zeros; a mask gathers the top bits of
the lanes in a word, the lane `i` at the bit `i`, so that the lowest bit which is set tells the
first lane.
-/

namespace Lib

/-- A register of `n` byte lanes. -/
abbrev Lanes (n : ℕ) := Vector UInt8 n

/-- All bits of a lane, or none. -/
def laneOf (holds : Bool) : UInt8 := if holds then 0xFF else 0

/-- The top bit of a lane. -/
def laneTop (lane : UInt8) : Bool := lane >>> 7 = 1

@[simp] lemma laneTop_laneOf (holds : Bool) : laneTop (laneOf holds) = holds := by
  cases holds <;> rfl

@[simp] lemma laneOf_ne_zero (holds : Bool) : decide (laneOf holds ≠ 0) = holds := by
  cases holds <;> rfl

namespace Lanes

variable {n : ℕ}

/-- The same byte in every lane. -/
def set1 (byte : UInt8) : Lanes n := Vector.replicate n byte

/-- The exclusive or, lane by lane. -/
def xor (v w : Lanes n) : Lanes n := Vector.zipWith (· ^^^ ·) v w

/-- `v > w` lane by lane, on signed lanes. -/
def gtSigned (v w : Lanes n) : Lanes n :=
  Vector.zipWith (fun x y => laneOf (y.toInt8 < x.toInt8)) v w

/-- `v > w` lane by lane, on unsigned lanes. -/
def gtUnsigned (v w : Lanes n) : Lanes n := Vector.zipWith (fun x y => laneOf (y < x)) v w

/-- The top bits of the lanes. -/
def movemask (v : Lanes n) : BitVec 32 := (BitVec.ofBoolListLE (v.toList.map laneTop)).setWidth 32

/-- The lowest bit that is set, if the word is not zero. -/
def lowestBit (mask : BitVec 32) : Option ℕ :=
  if mask ≠ 0 then some mask.ctz.toNat else none

lemma toList_zipWith_set1 (f : UInt8 → UInt8 → UInt8) (v : Lanes n) (byte : UInt8) :
    (Vector.zipWith f v (set1 byte)).toList = v.toList.map fun lane => f lane byte := by
  rw [set1, Vector.toList_zipWith, Vector.toList_replicate]
  refine List.ext_getElem (by simp) fun i h h' => ?_
  rw [List.getElem_zipWith, List.getElem_replicate, List.getElem_map]

/-- A comparison with a constant finds what the bytes themselves are compared with. -/
lemma findIdx?_zipWith_set1 (p : UInt8 → Bool) (f : UInt8 → UInt8 → UInt8) (v : Lanes n)
    (byte : UInt8) :
    (Vector.zipWith f v (set1 byte)).toList.findIdx? p =
      v.toList.findIdx? fun lane => p (f lane byte) := by
  rw [toList_zipWith_set1, List.findIdx?_map]
  rfl

lemma getLsbD_movemask (v : Lanes n) (i : ℕ) :
    (movemask v).getLsbD i = (decide (i < 32) && (v.toList[i]?.map laneTop).getD false) := by
  rw [movemask, BitVec.getLsbD_setWidth, BitVec.getLsbD_ofBoolListLE,
    List.getD_eq_getElem?_getD, List.getElem?_map]

/-- The lowest bit of a mask is the first lane with its top bit. -/
lemma lowestBit_movemask (hn : n ≤ 32) (v : Lanes n) :
    lowestBit (movemask v) = v.toList.findIdx? laneTop := by
  have hlen : v.toList.length = n := by simp
  have hbit : ∀ i (hi : i < v.toList.length), (movemask v).getLsbD i = laneTop v.toList[i] := by
    intro i hi
    rw [getLsbD_movemask, decide_eq_true (by omega), Bool.true_and, List.getElem?_eq_getElem hi]
    rfl
  -- beyond the lanes a mask has no bits
  have hout : ∀ i, (movemask v).getLsbD i = true → i < v.toList.length := by
    intro i h
    rw [getLsbD_movemask, Bool.and_eq_true] at h
    by_contra hi
    rw [List.getElem?_eq_none (by omega)] at h
    exact absurd h.2 (by decide)
  rw [lowestBit]
  split
  · next hne =>
      have htop := BitVec.getLsbD_true_ctz_of_ne_zero hne
      have hi := hout _ htop
      refine (List.findIdx?_eq_some_iff_getElem.mpr ⟨hi, ?_, ?_⟩).symm
      · rw [← hbit _ hi]
        exact htop
      · intro j hj
        rw [← hbit j (by omega), BitVec.getLsbD_false_of_lt_ctz hj]
        decide
  · next hzero =>
      refine (List.findIdx?_eq_none_iff.mpr ?_).symm
      intro lane hlane
      obtain ⟨i, hi, rfl⟩ := List.mem_iff_getElem.mp hlane
      rw [← hbit i hi, not_not.mp hzero]
      exact BitVec.getLsbD_zero

end Lanes

end Lib
