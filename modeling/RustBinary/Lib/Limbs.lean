import RustBinary.Lib.Outcome
import Mathlib.Data.Nat.Digits.Defs
import Mathlib.Data.Nat.ModEq
import Mathlib.Tactic.Ring

/-!
# Limbs, carries and checked words

A number in limbs is the list of its digits, least significant first, but a digit may be
larger than the base until the carries have been propagated.  `propagate` is one pass of
carries; what it leaves is the expansion of the same number, with the rest in the last carry.

`fold` is the reduction step for a modulus just below a power of two.  `checked` is machine
arithmetic that aborts on overflow.
-/

namespace Lib

/-! ## Carries -/

/-- One pass of carries from the low end: the limbs below `base`, and the carry that is left. -/
def propagate (base : ℕ) : ℕ → List ℕ → List ℕ × ℕ
  | carry, [] => ([], carry)
  | carry, d :: ds =>
      let rest := propagate base ((carry + d) / base) ds
      ((carry + d) % base :: rest.1, rest.2)

/-- Carries do not change the number. -/
lemma propagate_value (base carry : ℕ) (ds : List ℕ) :
    Nat.ofDigits base (propagate base carry ds).1
      + base ^ ds.length * (propagate base carry ds).2 = carry + Nat.ofDigits base ds := by
  induction ds generalizing carry with
  | nil => simp [propagate]
  | cons d ds ih =>
      have hrest := ih ((carry + d) / base)
      have hsplit := Nat.mod_add_div (carry + d) base
      simp only [propagate, Nat.ofDigits_cons, List.length_cons]
      calc (carry + d) % base + base * Nat.ofDigits base (propagate base ((carry + d) / base) ds).1
            + base ^ (ds.length + 1) * (propagate base ((carry + d) / base) ds).2
          = (carry + d) % base
            + base * (Nat.ofDigits base (propagate base ((carry + d) / base) ds).1
              + base ^ ds.length * (propagate base ((carry + d) / base) ds).2) := by ring
        _ = ((carry + d) % base + base * ((carry + d) / base)) + base * Nat.ofDigits base ds := by
            rw [hrest]; ring
        _ = carry + (d + base * Nat.ofDigits base ds) := by rw [hsplit]; ring

/-! ## Folding -/

/-- The part of `n` above bit `k`, put back with the factor `c`. -/
def fold (k c n : ℕ) : ℕ := n % 2 ^ k + c * (n / 2 ^ k)

/-- Folding keeps a number modulo `2 ^ k - c`. -/
lemma fold_modEq {k c : ℕ} (hc : c ≤ 2 ^ k) (n : ℕ) : fold k c n ≡ n [MOD 2 ^ k - c] := by
  have hsplit : n = fold k c n + (2 ^ k - c) * (n / 2 ^ k) := by
    have hn := Nat.mod_add_div n (2 ^ k)
    have hsub : (2 ^ k - c) * (n / 2 ^ k) + c * (n / 2 ^ k) = 2 ^ k * (n / 2 ^ k) := by
      rw [← Nat.add_mul, Nat.sub_add_cancel hc]
    rw [fold]
    omega
  have h : fold k c n + (2 ^ k - c) * (n / 2 ^ k) ≡ fold k c n [MOD 2 ^ k - c] := by
    rw [Nat.ModEq, Nat.add_mul_mod_self_left]
  rw [← hsplit] at h
  exact h.symm

/-! ## Checked words -/

namespace Outcome

variable {ε : Type}

/-- The value of an operation on words of `w` bits, which must not overflow. -/
def checked (w n : ℕ) : Outcome ε ℕ := if n < 2 ^ w then ok n else panic

lemma checked_of_lt {w n : ℕ} (h : n < 2 ^ w) : (checked w n : Outcome ε ℕ) = ok n := if_pos h

lemma checked_eq_ok {w n m : ℕ} : (checked w n : Outcome ε ℕ) = ok m ↔ n < 2 ^ w ∧ n = m := by
  rw [checked]
  split
  · next h => simp [h]
  · next h => simp [h]

end Outcome

end Lib
