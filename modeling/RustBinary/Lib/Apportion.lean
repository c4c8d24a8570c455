import Mathlib.Algebra.Group.Action.Defs
import Mathlib.Algebra.BigOperators.Group.List.Basic
import Mathlib.Algebra.Order.BigOperators.Group.List
import Mathlib.Algebra.Order.Ring.Nat

/-!
# Shares of a mass

A mass is shared out among weights in proportion to them.  The quota of a weight is its share
rounded down; what has been cut off is its remainder.  The quotas never exceed the mass, and
they miss it by less than one for each weight.
-/

namespace Lib.Apportion

def quota (mass total weight : ℕ) : ℕ := weight * mass / total

def remainder (mass total weight : ℕ) : ℕ := weight * mass % total

variable {mass total v w : ℕ} {weights : List ℕ}

/-- Division with remainder, over all weights together. -/
lemma sum_quota_add_remainder (mass total : ℕ) (weights : List ℕ) :
    total * (weights.map (quota mass total)).sum + (weights.map (remainder mass total)).sum
      = weights.sum * mass := by
  induction weights with
  | nil => simp
  | cons w weights ih =>
      have hsplit := Nat.div_add_mod (w * mass) total
      rw [List.map_cons, List.map_cons, List.sum_cons, List.sum_cons, List.sum_cons, quota,
        remainder, Nat.mul_add, Nat.add_mul, ← ih]
      omega

lemma sum_quota_le (h : 0 < weights.sum) :
    (weights.map (quota mass weights.sum)).sum ≤ mass := by
  have hsum := sum_quota_add_remainder mass weights.sum weights
  exact Nat.le_of_mul_le_mul_left (by omega) h

lemma le_sum_quota_add (h : 0 < weights.sum) :
    mass ≤ (weights.map (quota mass weights.sum)).sum + weights.length := by
  have hsum := sum_quota_add_remainder mass weights.sum weights
  have hrest : (weights.map (remainder mass weights.sum)).sum ≤ weights.length * weights.sum := by
    have hle := List.sum_le_card_nsmul (weights.map (remainder mass weights.sum)) weights.sum (by
      intro r hr
      obtain ⟨w, -, rfl⟩ := List.mem_map.mp hr
      exact (Nat.mod_lt _ h).le)
    rwa [List.length_map, smul_eq_mul] at hle
  refine Nat.le_of_mul_le_mul_left ?_ h
  rw [Nat.mul_add, Nat.mul_comm weights.sum weights.length]
  omega

lemma quota_mono (h : v ≤ w) : quota mass total v ≤ quota mass total w :=
  Nat.div_le_div_right (Nat.mul_le_mul_right _ h)

/-- Of two weights with one quota the larger one has the larger remainder. -/
lemma remainder_lt (hmass : 0 < mass) (h : v < w) (hquota : quota mass total v = quota mass total w) :
    remainder mass total v < remainder mass total w := by
  have hv := Nat.div_add_mod (v * mass) total
  have hw := Nat.div_add_mod (w * mass) total
  have hlt : v * mass < w * mass := Nat.mul_lt_mul_of_pos_right h hmass
  rw [quota, quota] at hquota
  rw [remainder, remainder]
  rw [hquota] at hv
  omega

end Lib.Apportion
