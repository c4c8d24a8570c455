import RustBinary.Entropy.Tables

/-!
# Weights and frequencies in order

A larger weight gets a frequency that is no smaller, with two exceptions.  The reduction takes
from the largest frequencies first, and may leave them below others; and a weight whose quota
was zero has been bumped to one, which a remainder larger than that of a weight of quota one
may raise once more.
-/

namespace RustBinary.Entropy

open Lib Lib.Outcome Apportion

namespace Tables

/-- What is let in. -/
lemma accepted_of_fromWeights {weights : List UInt32} {t : Tables}
    (h : fromWeights weights = ok t) : Accepted (numbers weights) := by
  rw [fromWeights] at h
  dsimp only at h
  split at h
  · cases h
  · next hlength =>
      have hle : weights.length ≤ ransM := by omega
      have hsum := (sum_numbers_lt hle).trans (show 2 ^ 48 < 2 ^ 64 by decide)
      rw [← numbers, checkedSum_of_lt (by rwa [Nat.zero_add]), ok_bind, Nat.zero_add] at h
      split at h
      · cases h
      · next hpos =>
          refine ⟨?_, Nat.pos_of_ne_zero hpos⟩
          rwa [numbers, List.length_map]

section Weights

variable {weights : List ℕ} {a b : ℕ}

/-- After a reduction nothing is left to hand out. -/
lemma apportioned_of_reduction (h : Accepted weights) (hover : ransM < (bumped weights).sum)
    (i : ℕ) : (apportioned weights).getD i 0 = (reduced weights).1.getD i 0 := by
  have hsum : (reduced weights).1.sum = ransM := by
    rw [sum_reduced h, Nat.min_eq_right hover.le]
  rw [apportioned_getD, hsum, Nat.sub_self, List.take_zero, if_neg (List.not_mem_nil), Nat.add_zero]

lemma bumped_mono (ha : a < weights.length) (hb : b < weights.length)
    (hlt : weights.getD b 0 < weights.getD a 0) :
    (bumped weights).getD b 0 ≤ (bumped weights).getD a 0 := by
  rw [bumped_getD ha, bumped_getD hb]
  exact max_le_max_right 1 (quota_mono hlt.le)

/-- Of two weights with one quota the larger one is handed its unit first. -/
lemma unit_of_unit (ha : a < weights.length) (hb : b < weights.length)
    (hlt : weights.getD b 0 < weights.getD a 0)
    (hquota : quota ransM weights.sum (weights.getD b 0)
      = quota ransM weights.sum (weights.getD a 0))
    {n : ℕ} (hmem : b ∈ (byRemainder weights).take n) : a ∈ (byRemainder weights).take n := by
  have hkey {i : ℕ} (hi : i < weights.length) :
      (weights.map (remainder ransM weights.sum)).getD i 0
        = remainder ransM weights.sum (weights.getD i 0) := by
    rw [List.getD_eq_getElem _ _ (by rwa [List.length_map]), List.getElem_map,
      List.getD_eq_getElem _ _ hi]
  refine mem_take_descending (by rwa [List.length_map]) ?_ hmem
  rw [hkey ha, hkey hb]
  exact remainder_lt (by decide) hlt hquota

lemma apportioned_order (h : Accepted weights) (ha : a < weights.length) (hb : b < weights.length)
    (hlt : weights.getD b 0 < weights.getD a 0) :
    (apportioned weights).getD b 0 ≤ (apportioned weights).getD a 0 ∨
      (ransM < (bumped weights).sum ∧
        (apportioned weights).getD a 0 < (bumped weights).getD a 0) ∨
      (quota ransM weights.sum (weights.getD a 0) = 1 ∧
        quota ransM weights.sum (weights.getD b 0) = 0 ∧
        (apportioned weights).getD a 0 = 1 ∧ (apportioned weights).getD b 0 = 2) := by
  have hbumped := bumped_mono ha hb hlt
  rcases Nat.lt_or_ge ransM (bumped weights).sum with hover | hle
  · rw [apportioned_of_reduction h hover, apportioned_of_reduction h hover]
    have hreduced := reduced_le weights b
    rcases Nat.lt_or_ge ((reduced weights).1.getD a 0) ((bumped weights).getD a 0) with hlow | hhigh
    · exact Or.inr (Or.inl ⟨hover, hlow⟩)
    · exact Or.inl (by omega)
  · rw [apportioned_getD, apportioned_getD, reduced_of_le hle]
    dsimp only
    by_cases hraised : b ∈ (byRemainder weights).take (ransM - (bumped weights).sum)
    · by_cases hquota : quota ransM weights.sum (weights.getD b 0)
          = quota ransM weights.sum (weights.getD a 0)
      · have hunit := unit_of_unit ha hb hlt hquota hraised
        rw [if_pos hraised, if_pos hunit]
        exact Or.inl (by omega)
      · -- the quotas differ; the bump may have made them equal
        have hmono : quota ransM weights.sum (weights.getD b 0)
            ≤ quota ransM weights.sum (weights.getD a 0) := quota_mono hlt.le
        rw [if_pos hraised, bumped_getD ha, bumped_getD hb]
        split <;> omega
    · rw [if_neg hraised]
      exact Or.inl (by omega)

end Weights

end Tables

end RustBinary.Entropy
