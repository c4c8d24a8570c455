import RustBinary.Lib.Apportion
import RustBinary.Entropy.Model
import Mathlib.Data.List.Nodup
import Mathlib.Data.List.Sort
import Mathlib.Data.List.GetD

/-!
# Frequencies from weights

The four phases of `from_weights`: the quotas of the weights, rounded down; the bump that makes
each of them at least one; the reduction when the bumps exceed the mass; and the units that go
to the largest remainders.  The phases land on the mass exactly.
-/

namespace RustBinary.Entropy

open Lib Lib.Outcome Apportion

/-! ## Orders -/

lemma descending_perm (keys : List ℕ) : (descending keys).Perm (List.range keys.length) :=
  List.mergeSort_perm _ _

lemma nodup_descending (keys : List ℕ) : (descending keys).Nodup :=
  (descending_perm keys).nodup_iff.mpr List.nodup_range

lemma length_descending (keys : List ℕ) : (descending keys).length = keys.length := by
  rw [(descending_perm keys).length_eq, List.length_range]

lemma mem_descending {keys : List ℕ} {i : ℕ} : i ∈ descending keys ↔ i < keys.length := by
  rw [(descending_perm keys).mem_iff, List.mem_range]

/-- The order of the sort. -/
def Before (keys : List ℕ) (a b : ℕ) : Prop :=
  keys.getD b 0 < keys.getD a 0 ∨ keys.getD a 0 = keys.getD b 0 ∧ a ≤ b

instance (keys : List ℕ) (a b : ℕ) : Decidable (Before keys a b) :=
  inferInstanceAs (Decidable (keys.getD b 0 < keys.getD a 0 ∨ keys.getD a 0 = keys.getD b 0 ∧ a ≤ b))

lemma descending_pairwise (keys : List ℕ) : (descending keys).Pairwise (Before keys) := by
  have htrans : ∀ a b c, decide (Before keys a b) = true → decide (Before keys b c) = true →
      decide (Before keys a c) = true := by
    intro a b c hab hbc
    simp only [decide_eq_true_eq] at hab hbc ⊢
    rw [Before] at hab hbc ⊢
    omega
  have htotal : ∀ a b, (decide (Before keys a b) || decide (Before keys b a)) = true := by
    intro a b
    simp only [Bool.or_eq_true, decide_eq_true_eq]
    rw [Before, Before]
    omega
  have h := List.pairwise_mergeSort htrans htotal (List.range keys.length)
  exact h.imp fun hab => of_decide_eq_true hab

/-- The order is the only one there is. -/
lemma descending_eq {keys order : List ℕ} (hperm : order.Perm (List.range keys.length))
    (hpairwise : order.Pairwise (Before keys)) : descending keys = order := by
  refine ((descending_perm keys).trans hperm.symm).eq_of_pairwise (fun i j _ _ hij hji => ?_)
    (descending_pairwise keys) hpairwise
  rw [Before] at hij hji
  omega

/-- Where a key is larger, its index comes first. -/
lemma mem_take_descending {keys : List ℕ} {a b n : ℕ} (ha : a < keys.length)
    (hlt : keys.getD b 0 < keys.getD a 0) (hb : b ∈ (descending keys).take n) :
    a ∈ (descending keys).take n := by
  by_contra hnot
  -- then `a` is among those that come after
  have hmem : a ∈ (descending keys).drop n := by
    have h := mem_descending.mpr ha
    rw [← List.take_append_drop n (descending keys)] at h
    exact (List.mem_append.mp h).resolve_left hnot
  have hpairwise := descending_pairwise keys
  rw [← List.take_append_drop n (descending keys), List.pairwise_append] at hpairwise
  have hbefore := hpairwise.2.2 b hb a hmem
  rw [Before] at hbefore
  omega

/-! ## Changing one entry -/

lemma sum_modify {freqs : List ℕ} {i : ℕ} (hi : i < freqs.length) (f : ℕ → ℕ) :
    (freqs.modify i f).sum + freqs.getD i 0 = freqs.sum + f (freqs.getD i 0) := by
  induction freqs generalizing i with
  | nil => exact absurd hi (Nat.not_lt_zero _)
  | cons x freqs ih =>
      cases i with
      | zero =>
          rw [List.modify_zero_cons, List.sum_cons, List.sum_cons, List.getD_cons_zero]
          omega
      | succ i =>
          have h := ih (Nat.lt_of_succ_lt_succ hi)
          rw [List.modify_succ_cons, List.sum_cons, List.sum_cons, List.getD_cons_succ]
          omega

lemma getD_modify {freqs : List ℕ} {i : ℕ} (hi : i < freqs.length) (f : ℕ → ℕ) (j : ℕ) :
    (freqs.modify i f).getD j 0 = if i = j then f (freqs.getD i 0) else freqs.getD j 0 := by
  rw [List.getD_eq_getElem?_getD, List.getElem?_modify]
  split
  · next heq =>
      subst heq
      rw [List.getElem?_eq_getElem hi, List.getD_eq_getElem _ _ hi]
      rfl
  · rw [List.getD_eq_getElem?_getD]
    simp

/-! ## The reduction -/

/-- What the reduction does: it takes the excess away as far as the entries of the order have
more than one, and it never raises an entry or takes its last unit. -/
structure Reduces (freqs : List ℕ) (excess : ℕ) (order : List ℕ) (out : List ℕ × ℕ) : Prop where
  length_eq : out.1.length = freqs.length
  sum_eq : out.1.sum + excess = freqs.sum + out.2
  rest_eq : out.2 = excess - (order.map fun i => freqs.getD i 0 - 1).sum
  le : ∀ i, out.1.getD i 0 ≤ freqs.getD i 0
  pos : ∀ i, 0 < freqs.getD i 0 → 0 < out.1.getD i 0

lemma reduceLoop_spec {order : List ℕ} (hnodup : order.Nodup) {freqs : List ℕ} {excess : ℕ}
    (hmem : ∀ i ∈ order, i < freqs.length) :
    Reduces freqs excess order (reduceLoop order excess freqs) := by
  induction order generalizing freqs excess with
  | nil => exact ⟨rfl, rfl, rfl, fun _ => Nat.le_refl _, fun _ h => h⟩
  | cons index order ih =>
      rw [List.nodup_cons] at hnodup
      have hi : index < freqs.length := hmem index List.mem_cons_self
      rw [reduceLoop]
      split
      · next hzero =>
          exact ⟨rfl, by rw [hzero], by rw [hzero, Nat.zero_sub], fun _ => Nat.le_refl _,
            fun _ h => h⟩
      · obtain ⟨reduce, hreduce⟩ : ∃ reduce, reduce = min (freqs.getD index 0 - 1) excess :=
          ⟨_, rfl⟩
        dsimp only
        rw [← hreduce]
        have hmore : ∀ i ∈ order, i < (freqs.modify index fun f => f - reduce).length := by
          intro i hi
          rw [List.length_modify]
          exact hmem i (List.mem_cons_of_mem _ hi)
        have h : Reduces _ (excess - reduce) order _ := ih hnodup.2 hmore
        have hsum := sum_modify hi fun f => f - reduce
        have hget := getD_modify hi fun f => f - reduce
        -- the entries that are still to come have not been touched
        have hrest : (order.map fun i => (freqs.modify index fun f => f - reduce).getD i 0 - 1)
            = order.map fun i => freqs.getD i 0 - 1 := by
          refine List.map_congr_left fun i hlater => ?_
          have hne : index ≠ i := by
            rintro rfl
            exact hnodup.1 hlater
          rw [hget, if_neg hne]
        have hout := h.sum_eq
        refine ⟨by rw [h.length_eq, List.length_modify], ?_, ?_, ?_, ?_⟩
        · omega
        · rw [h.rest_eq, hrest, List.map_cons, List.sum_cons]
          omega
        · intro i
          refine (h.le i).trans ?_
          rw [hget]
          split <;> rename_i heq
          · rw [heq]
            omega
          · exact Nat.le_refl _
        · intro i hpos
          refine h.pos i ?_
          rw [hget]
          split <;> rename_i heq
          · rw [heq] at hreduce ⊢
            omega
          · exact hpos

/-! ## The units -/

/-- One unit for each index of the order. -/
def raiseLoop (order freqs : List ℕ) : List ℕ :=
  order.foldl (fun freqs index => freqs.modify index (· + 1)) freqs

lemma raiseLoop_spec {order : List ℕ} (hnodup : order.Nodup) {freqs : List ℕ}
    (hmem : ∀ i ∈ order, i < freqs.length) :
    (raiseLoop order freqs).length = freqs.length ∧
      (raiseLoop order freqs).sum = freqs.sum + order.length ∧
      ∀ i, (raiseLoop order freqs).getD i 0 = freqs.getD i 0 + if i ∈ order then 1 else 0 := by
  induction order generalizing freqs with
  | nil => exact ⟨rfl, rfl, fun i => by simp [raiseLoop]⟩
  | cons index order ih =>
      rw [List.nodup_cons] at hnodup
      have hi : index < freqs.length := hmem index List.mem_cons_self
      have hmore : ∀ i ∈ order, i < (freqs.modify index (· + 1)).length := by
        intro i hi
        rw [List.length_modify]
        exact hmem i (List.mem_cons_of_mem _ hi)
      obtain ⟨hlength, hsum, hget⟩ := ih hnodup.2 hmore
      have hone := sum_modify hi (· + 1)
      refine ⟨hlength.trans (List.length_modify _ _ _), ?_, fun i => ?_⟩
      · rw [raiseLoop, List.foldl_cons, List.length_cons]
        rw [raiseLoop] at hsum
        omega
      · rw [raiseLoop, List.foldl_cons]
        rw [raiseLoop] at hget
        rw [hget i, getD_modify hi (· + 1)]
        by_cases heq : index = i
        · subst heq
          rw [if_pos rfl, if_neg hnodup.1, if_pos List.mem_cons_self]
        · rw [if_neg heq]
          simp [Ne.symm heq]

/-! ## The phases together -/

section Phases

variable (weights : List ℕ)

/-- The quotas, each at least one. -/
def bumped : List ℕ := weights.map fun weight => max (quota ransM weights.sum weight) 1

/-- The quotas after the reduction, and what could not be taken away. -/
def reduced : List ℕ × ℕ :=
  if ransM < (bumped weights).sum then
    reduceLoop (descending (bumped weights)) ((bumped weights).sum - ransM) (bumped weights)
  else (bumped weights, 0)

/-- The indices in the order of their remainders. -/
def byRemainder : List ℕ := descending (weights.map (remainder ransM weights.sum))

/-- The frequencies of the weights. -/
def apportioned : List ℕ :=
  raiseLoop ((byRemainder weights).take (ransM - (reduced weights).1.sum)) (reduced weights).1

end Phases

variable {weights : List ℕ}

/-- Weights that a model can be built from. -/
structure Accepted (weights : List ℕ) : Prop where
  length_le : weights.length ≤ ransM
  sum_pos : 0 < weights.sum

lemma Accepted.length_pos (h : Accepted weights) : 0 < weights.length := by
  rw [List.length_pos_iff]
  rintro rfl
  exact absurd h.sum_pos (Nat.lt_irrefl 0)

lemma length_bumped (weights : List ℕ) : (bumped weights).length = weights.length :=
  List.length_map _

lemma bumped_getD {i : ℕ} (hi : i < weights.length) :
    (bumped weights).getD i 0 = max (quota ransM weights.sum (weights.getD i 0)) 1 := by
  rw [bumped, List.getD_eq_getElem _ _ (by rwa [List.length_map]), List.getElem_map,
    List.getD_eq_getElem _ _ hi]

lemma bumped_getD_pos {i : ℕ} (hi : i < weights.length) : 0 < (bumped weights).getD i 0 := by
  rw [bumped_getD hi]
  omega

/-- A bump adds one at most, and only to what is zero. -/
lemma sum_bumped_bounds (weights : List ℕ) :
    (weights.map (quota ransM weights.sum)).sum ≤ (bumped weights).sum ∧
      (bumped weights).sum ≤ (weights.map (quota ransM weights.sum)).sum + weights.length := by
  rw [bumped]
  generalize weights.sum = total
  induction weights with
  | nil => exact ⟨Nat.le_refl _, Nat.le_refl _⟩
  | cons w weights ih =>
      rw [List.map_cons, List.map_cons, List.sum_cons, List.sum_cons, List.length_cons]
      omega

/-- What the entries have above one. -/
lemma sum_above_one (weights : List ℕ) :
    ((descending (bumped weights)).map fun i => (bumped weights).getD i 0 - 1).sum
      + weights.length = (bumped weights).sum := by
  rw [((descending_perm (bumped weights)).map _).sum_eq]
  have hmap : ((List.range (bumped weights).length).map fun i => (bumped weights).getD i 0 - 1)
      = (bumped weights).map (· - 1) := by
    refine List.ext_getElem (by simp) fun i h₁ h₂ => ?_
    rw [List.getElem_map, List.getElem_map, List.getElem_range, List.getD_eq_getElem]
  rw [hmap, bumped]
  clear hmap
  generalize weights.sum = total
  induction weights with
  | nil => rfl
  | cons w weights ih =>
      simp only [List.map_cons, List.sum_cons, List.length_cons] at ih ⊢
      omega

/-- The reduction, where there is one. -/
lemma reduces_reduced (h : ransM < (bumped weights).sum) :
    Reduces (bumped weights) ((bumped weights).sum - ransM) (descending (bumped weights))
      (reduced weights) := by
  rw [reduced, if_pos h]
  exact reduceLoop_spec (nodup_descending _) fun i hi => mem_descending.mp hi

lemma reduced_of_le (h : (bumped weights).sum ≤ ransM) : reduced weights = (bumped weights, 0) := by
  rw [reduced, if_neg (Nat.not_lt.mpr h)]

/-- There is enough above one to take the whole excess away. -/
lemma reduced_snd (h : Accepted weights) : (reduced weights).2 = 0 := by
  rcases Nat.lt_or_ge ransM (bumped weights).sum with hover | hle
  · have hrest := (reduces_reduced hover).rest_eq
    have habove := sum_above_one weights
    have hlength := h.length_le
    omega
  · rw [reduced_of_le hle]

lemma sum_reduced (h : Accepted weights) :
    (reduced weights).1.sum = min (bumped weights).sum ransM := by
  rcases Nat.lt_or_ge ransM (bumped weights).sum with hover | hle
  · have hsum := (reduces_reduced hover).sum_eq
    rw [reduced_snd h] at hsum
    omega
  · rw [reduced_of_le hle, Nat.min_eq_left hle]

lemma length_reduced (weights : List ℕ) : (reduced weights).1.length = weights.length := by
  rcases Nat.lt_or_ge ransM (bumped weights).sum with hover | hle
  · rw [(reduces_reduced hover).length_eq, length_bumped]
  · rw [reduced_of_le hle, length_bumped]

lemma reduced_pos {i : ℕ} (hi : i < weights.length) : 0 < (reduced weights).1.getD i 0 := by
  rcases Nat.lt_or_ge ransM (bumped weights).sum with hover | hle
  · exact (reduces_reduced hover).pos i (bumped_getD_pos hi)
  · rw [reduced_of_le hle]
    exact bumped_getD_pos hi

lemma reduced_le (weights : List ℕ) (i : ℕ) :
    (reduced weights).1.getD i 0 ≤ (bumped weights).getD i 0 := by
  rcases Nat.lt_or_ge ransM (bumped weights).sum with hover | hle
  · exact (reduces_reduced hover).le i
  · rw [reduced_of_le hle]

lemma length_byRemainder (weights : List ℕ) : (byRemainder weights).length = weights.length := by
  rw [byRemainder, length_descending, List.length_map]

lemma byRemainder_take (weights : List ℕ) (n : ℕ) :
    ((byRemainder weights).take n).Nodup ∧
      ∀ i ∈ (byRemainder weights).take n, i < (reduced weights).1.length := by
  refine ⟨(nodup_descending _).sublist (List.take_sublist _ _), fun i hi => ?_⟩
  have h := mem_descending.mp (List.mem_of_mem_take hi)
  rwa [List.length_map, ← length_reduced] at h

lemma length_apportioned (weights : List ℕ) : (apportioned weights).length = weights.length := by
  obtain ⟨hnodup, hmem⟩ := byRemainder_take weights (ransM - (reduced weights).1.sum)
  rw [apportioned, (raiseLoop_spec hnodup hmem).1, length_reduced]

lemma apportioned_getD (weights : List ℕ) (i : ℕ) :
    (apportioned weights).getD i 0 = (reduced weights).1.getD i 0 +
      if i ∈ (byRemainder weights).take (ransM - (reduced weights).1.sum) then 1 else 0 := by
  obtain ⟨hnodup, hmem⟩ := byRemainder_take weights (ransM - (reduced weights).1.sum)
  exact (raiseLoop_spec hnodup hmem).2.2 i

/-- The phases land on the mass: the quotas miss it by one for each weight at most, so that there
are enough remainders. -/
lemma sum_apportioned (h : Accepted weights) : (apportioned weights).sum = ransM := by
  obtain ⟨hnodup, hmem⟩ := byRemainder_take weights (ransM - (reduced weights).1.sum)
  have hmiss : ransM ≤ (weights.map (quota ransM weights.sum)).sum + weights.length :=
    le_sum_quota_add h.sum_pos
  have hbumped := (sum_bumped_bounds weights).1
  have hreduced := sum_reduced h
  rw [apportioned, (raiseLoop_spec hnodup hmem).2.1, List.length_take, length_byRemainder]
  omega

lemma apportioned_pos {f : ℕ} (hf : f ∈ apportioned weights) : 0 < f := by
  obtain ⟨i, hi, rfl⟩ := List.getElem_of_mem hf
  have hlength := hi
  rw [length_apportioned] at hlength
  rw [← List.getD_eq_getElem _ 0 hi, apportioned_getD]
  have hpos := reduced_pos hlength
  omega

end RustBinary.Entropy
