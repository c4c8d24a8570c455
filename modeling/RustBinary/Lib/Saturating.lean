import Mathlib.Algebra.Order.Ring.Nat
import Mathlib.Algebra.BigOperators.Group.List.Basic

/-!
# Bounds in saturating arithmetic

A bound that is computed with operations which saturate at `top` may end below the number that it is
for, but then it is `top`.  `Caps top bound n` says that the bound holds as far as that goes; sums,
products and maxima keep it, and for a number up to `top` it is the bound that it should be.
-/

namespace Lib

/-- `bound` bounds `n`, or it has saturated. -/
def Caps (top bound n : ℕ) : Prop := min n top ≤ bound

namespace Caps

variable {top a b m n : ℕ}

lemma of_le (h : n ≤ b) : Caps top b n := (Nat.min_le_left n top).trans h

lemma le (h : Caps top b n) (hn : n ≤ top) : n ≤ b := by
  rw [Caps, Nat.min_eq_left hn] at h
  exact h

lemma mono (h : Caps top a n) (hab : a ≤ b) : Caps top b n := h.trans hab

lemma anti (h : Caps top b n) (hmn : m ≤ n) : Caps top b m := by
  rw [Caps] at h ⊢
  omega

lemma add (hm : Caps top a m) (hn : Caps top b n) : Caps top (min (a + b) top) (m + n) := by
  rw [Caps] at hm hn ⊢
  omega

lemma mul_left (k : ℕ) (h : Caps top b n) : Caps top (min (k * b) top) (k * n) := by
  rw [Caps] at h ⊢
  rcases Nat.le_total n top with hle | hle
  · rw [Nat.min_eq_left hle] at h
    have hmul := Nat.mul_le_mul_left k h
    omega
  · -- the bound has saturated, and any positive multiple of it has as well
    rw [Nat.min_eq_right hle] at h
    rcases Nat.eq_zero_or_pos k with rfl | hk
    · omega
    · have hmul := Nat.le_mul_of_pos_left b hk
      omega

lemma max_of (hm : Caps top b m) (hn : Caps top b n) : Caps top b (max m n) := by
  rw [Caps] at hm hn ⊢
  omega

/-- A bound on each of some numbers, times how many there are. -/
lemma sum {ns : List ℕ} (h : ∀ n ∈ ns, Caps top b n) :
    Caps top (min (b * ns.length) top) ns.sum := by
  induction ns with
  | nil => exact of_le (Nat.zero_le _)
  | cons n ns ih =>
      obtain ⟨hn, hns⟩ := List.forall_mem_cons.mp h
      have hsum := hn.add (ih hns)
      rw [List.sum_cons, List.length_cons, Nat.mul_succ]
      refine hsum.mono ?_
      omega

end Caps

end Lib
