import Mathlib.Algebra.Order.Ring.Nat
import Mathlib.Tactic.Common
import Mathlib.Tactic.Ring

/-!
# Asymmetric numeral systems

The range variant over natural numbers.  A symbol owns `f` of `m` slots, from slot `c` on.
`push` puts it on top of a state and `pull` takes it off again.  Between two symbols the state
is kept in an interval `[q * m, q * m * b)`: a state that is too large for the next symbol
loses its lowest digit in base `b`, and gets it back when that symbol has been taken off.
-/

namespace Lib.Ans

/-- The state `x` with a symbol on top. -/
def push (m f c x : ℕ) : ℕ := x / f * m + c + x % f

/-- The state below the symbol on top of `y`. -/
def pull (m f c y : ℕ) : ℕ := y / m * f + y % m - c

variable {m f c x : ℕ}

/-- The slot of the pushed symbol. -/
lemma push_mod (hf : 0 < f) (hc : c + f ≤ m) : push m f c x % m = c + x % f := by
  have hlt : x % f < f := Nat.mod_lt _ hf
  rw [push, Nat.add_assoc, Nat.mul_comm, Nat.mul_add_mod, Nat.mod_eq_of_lt (by omega)]

lemma push_div (hf : 0 < f) (hc : c + f ≤ m) : push m f c x / m = x / f := by
  have hlt : x % f < f := Nat.mod_lt _ hf
  rw [push, Nat.add_assoc, Nat.mul_comm, Nat.mul_add_div (by omega),
    Nat.div_eq_of_lt (show c + x % f < m by omega), Nat.add_zero]

/-- Taking off what has been put on. -/
theorem pull_push (hf : 0 < f) (hc : c + f ≤ m) : pull m f c (push m f c x) = x := by
  rw [pull, push_mod hf hc, push_div hf hc]
  have hsplit := Nat.div_add_mod x f
  rw [Nat.mul_comm] at hsplit
  omega

/-- What `pull` adds up before it takes `c` away is no larger than the state. -/
lemma before_pull_le {y : ℕ} (hc : c + f ≤ m) : y / m * f + y % m ≤ y := by
  calc y / m * f + y % m ≤ y / m * m + y % m :=
        Nat.add_le_add_right (Nat.mul_le_mul_left _ (by omega)) _
    _ = y := Nat.div_add_mod' y m

section Interval

variable {q b : ℕ}

/-- A state below the bound of the symbol stays in the interval. -/
lemma push_lt (hf : 0 < f) (hc : c + f ≤ m) (hx : x < f * (q * b)) :
    push m f c x < q * m * b := by
  have hlt : x % f < f := Nat.mod_lt _ hf
  have hdiv : x / f < q * b := Nat.div_lt_of_lt_mul hx
  calc push m f c x < (x / f + 1) * m := by
        rw [push, Nat.add_mul]
        omega
    _ ≤ q * b * m := Nat.mul_le_mul_right _ hdiv
    _ = q * m * b := by ring

lemma le_push (hf : 0 < f) (hx : f * q ≤ x) : q * m ≤ push m f c x := by
  have hdiv : q ≤ x / f := (Nat.le_div_iff_mul_le hf).mpr (by rw [Nat.mul_comm]; exact hx)
  calc q * m ≤ x / f * m := Nat.mul_le_mul_right _ hdiv
    _ ≤ push m f c x := by
        rw [push]
        omega

/-- One digit is enough: without it the state is below the interval, and below the bound. -/
lemma flushed (hf : 0 < f) (hm : m ≤ b) (hx : x < q * m * b) (hbound : f * (q * b) ≤ x) :
    x / b < q * m ∧ f * q ≤ x / b ∧ x / b < f * (q * b) := by
  have hb : 0 < b := by
    by_contra hzero
    obtain rfl : b = 0 := by omega
    simp at hx
  have hlow : x / b < q * m := Nat.div_lt_of_lt_mul (by rw [Nat.mul_comm]; exact hx)
  refine ⟨hlow, (Nat.le_div_iff_mul_le hb).mpr (by rw [Nat.mul_assoc]; exact hbound), ?_⟩
  calc x / b < q * m := hlow
    _ ≤ q * b := Nat.mul_le_mul_left _ hm
    _ ≤ f * (q * b) := Nat.le_mul_of_pos_left _ hf

end Interval

end Lib.Ans
