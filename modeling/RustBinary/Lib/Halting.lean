import Mathlib.Data.Fintype.Pigeonhole
import Mathlib.Tactic.Common

/-!
# Machines that stop

A machine without input moves to its next state or stops.  With finitely many states it stops
exactly when it is in no state twice, and a number that every move lowers bounds its moves.
-/

namespace Lib

variable {σ : Type*} {step : σ → Option σ} {s t : σ}

/-- The state after `k` moves, if there are as many. -/
def after (step : σ → Option σ) : ℕ → σ → Option σ
  | 0, s => some s
  | k + 1, s => (step s).bind (after step k)

lemma after_add (k m : ℕ) (s : σ) :
    after step (k + m) s = (after step k s).bind (after step m) := by
  induction k generalizing s with
  | zero =>
      rw [Nat.zero_add]
      rfl
  | succ k ih =>
      rw [Nat.succ_add, after, after, Option.bind_assoc]
      exact Option.bind_congr fun t _ => ih t

/-- A machine that has stopped does not move again. -/
lemma after_eq_none_of_le {k m : ℕ} (hkm : k ≤ m) (h : after step k s = none) :
    after step m s = none := by
  obtain ⟨d, rfl⟩ := Nat.exists_eq_add_of_le hkm
  rw [after_add, h]
  rfl

/-- What every move preserves holds after all moves. -/
lemma after_preserves {P : σ → Prop} (hstep : ∀ s t, P s → step s = some t → P t) (k : ℕ)
    (hs : P s) (h : after step k s = some t) : P t := by
  induction k generalizing s with
  | zero =>
      cases h
      exact hs
  | succ k ih =>
      rw [after, Option.bind_eq_some_iff] at h
      obtain ⟨u, hu, h⟩ := h
      exact ih (hstep s u hs hu) h

/-- Some number of moves is not made. -/
def Halts (step : σ → Option σ) (s : σ) : Prop := ∃ k, after step k s = none

/-- A state that is met again is met for ever. -/
lemma after_mul_of_recurs {i d : ℕ} (hi : after step i s = some t)
    (hd : after step (i + d) s = some t) (m : ℕ) : after step (i + d * m) s = some t := by
  have hloop : after step d t = some t := by
    rw [after_add, hi] at hd
    exact hd
  induction m with
  | zero => exact hi
  | succ m ih =>
      rw [Nat.mul_succ, ← Nat.add_assoc, after_add, ih]
      exact hloop

/-- With finitely many states, a machine stops exactly when it is in no state twice. -/
lemma halts_iff_of_finite {P : σ → Prop} (hfin : Finite {s // P s})
    (hstep : ∀ s t, P s → step s = some t → P t) (hs : P s) :
    Halts step s ↔
      ∀ i j t, i < j → after step i s = some t → after step j s ≠ some t := by
  constructor
  · rintro ⟨k, hk⟩ i j t hij hi hj
    obtain ⟨d, rfl⟩ := Nat.exists_eq_add_of_lt hij
    have hfar := after_mul_of_recurs hi (d := d + 1) hj k
    have hmul : 1 * k ≤ (d + 1) * k := Nat.mul_le_mul_right k (Nat.succ_le_succ (Nat.zero_le d))
    have hle : k ≤ i + (d + 1) * k := by omega
    rw [after_eq_none_of_le hle hk] at hfar
    cases hfar
  · intro h
    by_contra hrun
    have hsome : ∀ k, ∃ t, after step k s = some t := fun k =>
      Option.ne_none_iff_exists'.mp fun hk => hrun ⟨k, hk⟩
    choose state hstate using hsome
    obtain ⟨i, j, hne, heq⟩ := Finite.exists_ne_map_eq_of_infinite fun k =>
      (⟨state k, after_preserves hstep k hs (hstate k)⟩ : {s // P s})
    have heq : state i = state j := congrArg Subtype.val heq
    rcases Nat.lt_or_gt_of_ne hne with hlt | hlt
    · exact h i j (state i) hlt (hstate i) (by rw [hstate j, heq])
    · exact h j i (state j) hlt (hstate j) (by rw [hstate i, heq])

end Lib
