import Mathlib.Algebra.Order.Ring.Nat
import Mathlib.Tactic.Common
import Mathlib.Tactic.Ring

/-!
# Rounding up to an alignment

`roundUp n a` is the least multiple of the alignment `a` from `n` on.  Rounding to an alignment
and then to a multiple of it is rounding to the multiple (`roundUp_roundUp`), and a gap in front
of an aligned address is closed by an alignment exactly if it is smaller (`roundUp_eq_iff`).
-/

namespace Lib

/-- The least multiple of `a` that is not below `n`. -/
def roundUp (n a : ℕ) : ℕ := n + (a - n % a) % a

lemma roundUp_of_dvd {n a : ℕ} (h : a ∣ n) : roundUp n a = n := by
  simp [roundUp, Nat.mod_eq_zero_of_dvd h]

@[simp] lemma roundUp_one (n : ℕ) : roundUp n 1 = n := roundUp_of_dvd (Nat.one_dvd n)

@[simp] lemma roundUp_zero (a : ℕ) : roundUp 0 a = 0 := roundUp_of_dvd (Nat.dvd_zero a)

lemma le_roundUp (n a : ℕ) : n ≤ roundUp n a := Nat.le_add_right _ _

lemma roundUp_lt {n a : ℕ} (ha : 0 < a) : roundUp n a < n + a :=
  Nat.add_lt_add_left (Nat.mod_lt _ ha) n

lemma dvd_roundUp {n a : ℕ} (ha : 0 < a) : a ∣ roundUp n a := by
  have hlt := Nat.mod_lt n ha
  rcases Nat.eq_zero_or_pos (n % a) with hzero | hpos
  · rw [roundUp_of_dvd (Nat.dvd_of_mod_eq_zero hzero)]
    exact Nat.dvd_of_mod_eq_zero hzero
  · rw [roundUp, Nat.mod_eq_of_lt (a := a - n % a) (by omega)]
    have hsplit : n + (a - n % a) = a * (n / a + 1) := by
      have := Nat.div_add_mod n a
      rw [Nat.mul_add, Nat.mul_one]
      omega
    exact ⟨_, hsplit⟩

/-- Rounding up gives the least multiple. -/
lemma roundUp_le {n a m : ℕ} (ha : 0 < a) (hm : a ∣ m) (h : n ≤ m) : roundUp n a ≤ m := by
  by_contra hgt
  have hlt := roundUp_lt (n := n) ha
  have hdvd : a ∣ roundUp n a - m := Nat.dvd_sub (dvd_roundUp ha) hm
  have := Nat.le_of_dvd (by omega) hdvd
  omega

lemma roundUp_mono {n m a : ℕ} (ha : 0 < a) (h : n ≤ m) : roundUp n a ≤ roundUp m a :=
  roundUp_le ha (dvd_roundUp ha) (h.trans (le_roundUp m a))

/-- A gap in front of an aligned address. -/
lemma roundUp_eq_iff {n a m : ℕ} (ha : 0 < a) (hm : a ∣ m) (h : n ≤ m) :
    roundUp n a = m ↔ m - n < a := by
  constructor
  · intro heq
    have := roundUp_lt (n := n) ha
    omega
  · intro hgap
    have hle := roundUp_le ha hm h
    have hdvd : a ∣ m - roundUp n a := Nat.dvd_sub hm (dvd_roundUp ha)
    have hn := le_roundUp n a
    have hzero := Nat.eq_zero_of_dvd_of_lt hdvd (by omega)
    omega

lemma roundUp_add {b : ℕ} (n a : ℕ) (hb : a ∣ b) : roundUp (b + n) a = b + roundUp n a := by
  rw [roundUp, roundUp, Nat.add_mod, Nat.mod_eq_zero_of_dvd hb, Nat.zero_add, Nat.mod_mod,
    Nat.add_assoc]

lemma roundUp_roundUp {n a b : ℕ} (ha : 0 < a) (hb : 0 < b) (h : a ∣ b) :
    roundUp (roundUp n a) b = roundUp n b := by
  refine Nat.le_antisymm ?_ (roundUp_mono hb (le_roundUp n a))
  exact roundUp_le hb (dvd_roundUp hb)
    (roundUp_le ha (h.trans (dvd_roundUp hb)) (le_roundUp n b))

/-! ## Alignments -/

/-- The alignments of types are powers of two. -/
def IsAlign (a : ℕ) : Prop := ∃ k, a = 2 ^ k

namespace IsAlign

variable {a b : ℕ}

lemma pos (h : IsAlign a) : 0 < a := by
  obtain ⟨k, rfl⟩ := h
  exact Nat.two_pow_pos k

lemma dvd_of_le (ha : IsAlign a) (hb : IsAlign b) (h : a ≤ b) : a ∣ b := by
  obtain ⟨k, rfl⟩ := ha
  obtain ⟨m, rfl⟩ := hb
  exact Nat.pow_dvd_pow 2 ((Nat.pow_le_pow_iff_right (by decide)).mp h)

lemma maximum (ha : IsAlign a) (hb : IsAlign b) : IsAlign (max a b) := by
  rcases Nat.le_total a b with h | h
  · rwa [Nat.max_eq_right h]
  · rwa [Nat.max_eq_left h]

lemma dvd_max_left (ha : IsAlign a) (hb : IsAlign b) : a ∣ max a b :=
  ha.dvd_of_le (ha.maximum hb) (Nat.le_max_left a b)

lemma dvd_max_right (ha : IsAlign a) (hb : IsAlign b) : b ∣ max a b :=
  hb.dvd_of_le (ha.maximum hb) (Nat.le_max_right a b)

/-- The gap that an alignment `b` leaves behind `n` is closed by an alignment `a` exactly if it is
smaller. -/
lemma roundUp_closes {n : ℕ} (ha : IsAlign a) (hb : IsAlign b) :
    Lib.roundUp n a = Lib.roundUp (Lib.roundUp n b) a ↔ Lib.roundUp n b - n < a := by
  rcases Nat.le_total b a with h | h
  · rw [roundUp_roundUp hb.pos ha.pos (hb.dvd_of_le ha h)]
    have hlt := roundUp_lt (n := n) hb.pos
    have hle := le_roundUp n b
    exact iff_of_true rfl (by omega)
  · have hdvd : a ∣ Lib.roundUp n b := (ha.dvd_of_le hb h).trans (dvd_roundUp hb.pos)
    rw [roundUp_of_dvd hdvd]
    exact roundUp_eq_iff ha.pos hdvd (le_roundUp n b)

end IsAlign

end Lib
