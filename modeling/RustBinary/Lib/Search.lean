import Mathlib.Algebra.Order.Ring.Nat
import Mathlib.Tactic.Common

/-!
# Binary search

`binarySearchByKey` looks for an element of a given key in a list whose keys increase.  What it
comes back with is the position of that element, and nothing if there is none.
-/

namespace Lib

section Search

variable {α κ : Type} [LinearOrder κ] (key : α → κ)

/-- The search between the positions `left` and `right`, in a bounded number of rounds. -/
def searchBetween (xs : List α) (k : κ) : ℕ → ℕ → ℕ → Option ℕ
  | 0, _, _ => none
  | rounds + 1, left, right =>
      if left < right then
        let mid := left + (right - left) / 2
        match xs[mid]? with
        | none => none
        | some x =>
            if key x = k then some mid
            else if key x < k then searchBetween xs k rounds (mid + 1) right
            else searchBetween xs k rounds left mid
      else none

/-- `binary_search_by_key`; the place where a missing element would go is left out. -/
def binarySearchByKey (xs : List α) (k : κ) : Option ℕ :=
  searchBetween key xs k (xs.length + 1) 0 xs.length

variable {key} {xs : List α} {k : κ} {x : α} {i : ℕ}

/-- A position that is found has the key. -/
lemma searchBetween_sound {rounds left right : ℕ}
    (h : searchBetween key xs k rounds left right = some i) : ∃ x, xs[i]? = some x ∧ key x = k := by
  induction rounds generalizing left right with
  | zero => cases h
  | succ rounds ih =>
      rw [searchBetween] at h
      split at h
      · dsimp only at h
        split at h
        · cases h
        · next x hx =>
            split at h
            · next hkey =>
                obtain rfl := Option.some.inj h
                exact ⟨x, hx, hkey⟩
            · split at h
              · exact ih h
              · exact ih h
      · cases h

/-- Keys that increase tell the positions apart. -/
lemma lt_of_key_lt (hxs : xs.Pairwise fun a b => key a < key b) {y : α} {j : ℕ}
    (hx : xs[i]? = some x) (hy : xs[j]? = some y) (hlt : key x < key y) : i < j := by
  obtain ⟨hi, rfl⟩ := List.getElem?_eq_some_iff.mp hx
  obtain ⟨hj, rfl⟩ := List.getElem?_eq_some_iff.mp hy
  rcases lt_trichotomy i j with h | rfl | h
  · exact h
  · exact absurd hlt (lt_irrefl _)
  · exact absurd hlt (lt_asymm (List.pairwise_iff_getElem.mp hxs j i hj hi h))

/-- The element is found as long as it lies between the two positions. -/
lemma searchBetween_complete (hxs : xs.Pairwise fun a b => key a < key b) {rounds left right : ℕ}
    (hrounds : right - left < rounds) (hright : right ≤ xs.length) (hx : xs[i]? = some x)
    (hkey : key x = k) (hleft : left ≤ i) (hi : i < right) :
    searchBetween key xs k rounds left right = some i := by
  induction rounds generalizing left right with
  | zero => exact absurd hrounds (Nat.not_lt_zero _)
  | succ rounds ih =>
      have hmid : left + (right - left) / 2 < xs.length := by omega
      have hy := List.getElem?_eq_getElem hmid
      rw [searchBetween, if_pos (show left < right by omega)]
      simp only [hy]
      split
      · next heq =>
          -- equal keys are at equal positions
          rcases lt_trichotomy i (left + (right - left) / 2) with h | h | h
          · have hlt := List.pairwise_iff_getElem.mp hxs i _ (by omega) hmid h
            obtain ⟨_, rfl⟩ := List.getElem?_eq_some_iff.mp hx
            exact absurd (heq.trans hkey.symm) (ne_of_gt hlt)
          · rw [h]
          · have hlt := List.pairwise_iff_getElem.mp hxs _ i hmid (by omega) h
            obtain ⟨_, rfl⟩ := List.getElem?_eq_some_iff.mp hx
            exact absurd (heq.trans hkey.symm) (ne_of_lt hlt)
      · next hne =>
          split
          · next hlt =>
              have := lt_of_key_lt hxs hy hx (hkey ▸ hlt)
              exact ih (by omega) hright (by omega) hi
          · next hge =>
              have hgt : key x < key (xs[left + (right - left) / 2]) :=
                hkey ▸ lt_of_le_of_ne (not_lt.mp hge) (Ne.symm hne)
              have := lt_of_key_lt hxs hx hy hgt
              exact ih (by omega) (by omega) hleft this

/-- The search finds the position of the key. -/
lemma binarySearchByKey_eq_some (hxs : xs.Pairwise fun a b => key a < key b) :
    binarySearchByKey key xs k = some i ↔ ∃ x, xs[i]? = some x ∧ key x = k := by
  constructor
  · exact searchBetween_sound
  · rintro ⟨x, hx, hkey⟩
    have hi : i < xs.length := (List.getElem?_eq_some_iff.mp hx).1
    exact searchBetween_complete hxs (by omega) (Nat.le_refl _) hx hkey (Nat.zero_le _) hi

/-- The search fails only if the key is not there. -/
lemma binarySearchByKey_eq_none (hxs : xs.Pairwise fun a b => key a < key b)
    (h : binarySearchByKey key xs k = none) : ∀ x ∈ xs, key x ≠ k := by
  intro x hx hkey
  obtain ⟨i, hi⟩ := List.mem_iff_getElem?.mp hx
  rw [(binarySearchByKey_eq_some hxs).mpr ⟨x, hi, hkey⟩] at h
  cases h

end Search

end Lib
