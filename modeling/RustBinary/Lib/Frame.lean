import RustBinary.Lib.Bytes

/-!
# Buffers that keep their contents

A buffer grows at its end, and words of `n` elements are overwritten at some positions, its holes.
Everything else that is read from the buffer stays as it is.
-/

namespace Lib

variable {α : Type} {n : ℕ} {holes holes' : List ℕ} {bs bs' bs'' : List α}

/-- `bs'` has the elements of `bs`, but for the `n` elements from each hole on. -/
structure Keeps (n : ℕ) (holes : List ℕ) (bs bs' : List α) : Prop where
  grows : bs.length ≤ bs'.length
  same : ∀ j < bs.length, (∀ p ∈ holes, j < p ∨ p + n ≤ j) → bs'[j]? = bs[j]?

/-- `xs` in place of the elements from `pos` on. -/
def patch (bs : List α) (pos : ℕ) (xs : List α) : List α :=
  bs.take pos ++ (xs ++ bs.drop (pos + xs.length))

lemma length_patch {pos : ℕ} {xs : List α} (h : pos + xs.length ≤ bs.length) :
    (patch bs pos xs).length = bs.length := by
  simp only [patch, List.length_append, List.length_take, List.length_drop]
  omega

lemma slice_patch {pos : ℕ} {xs : List α} (h : pos + xs.length ≤ bs.length) :
    slice (patch bs pos xs) pos (pos + xs.length) = some xs := by
  have hpos : (bs.take pos).length = pos := List.length_take_of_le (by omega)
  have hslice := slice_append (bs.take pos) xs (bs.drop (pos + xs.length))
  rwa [hpos] at hslice

namespace Keeps

lemma refl (bs : List α) : Keeps n holes bs bs := ⟨Nat.le_refl _, fun _ _ _ => rfl⟩

lemma mono (h : Keeps n holes bs bs') (hsub : holes ⊆ holes') : Keeps n holes' bs bs' :=
  ⟨h.grows, fun j hj hout => h.same j hj fun p hp => hout p (hsub hp)⟩

lemma trans (h : Keeps n holes bs bs') (h' : Keeps n holes' bs' bs'') :
    Keeps n (holes ++ holes') bs bs'' where
  grows := h.grows.trans h'.grows
  same := by
    intro j hj hout
    rw [List.forall_mem_append] at hout
    rw [h'.same j (Nat.lt_of_lt_of_le hj h.grows) hout.2, h.same j hj hout.1]

lemma grow (h : Keeps n [] bs bs') (h' : Keeps n holes bs' bs'') : Keeps n holes bs bs'' :=
  h.trans h'

/-- Holes behind the end do not matter. -/
lemma of_fresh (h : Keeps n (holes ++ holes') bs bs') (hfresh : ∀ p ∈ holes', bs.length ≤ p) :
    Keeps n holes bs bs' where
  grows := h.grows
  same := by
    intro j hj hout
    refine h.same j hj (List.forall_mem_append.mpr ⟨hout, fun p hp => ?_⟩)
    exact Or.inl (Nat.lt_of_lt_of_le hj (hfresh p hp))

lemma append (bs xs : List α) : Keeps n holes bs (bs ++ xs) where
  grows := by simp
  same := fun _ hj _ => List.getElem?_append_left hj

lemma of_patch {pos : ℕ} {xs : List α} (h : pos + xs.length ≤ bs.length) :
    Keeps xs.length [pos] bs (patch bs pos xs) where
  grows := (length_patch h).ge
  same := by
    intro j hj hout
    have hpos : (bs.take pos).length = pos := List.length_take_of_le (by omega)
    rw [patch]
    rcases hout pos List.mem_cons_self with hbefore | hbehind
    · rw [List.getElem?_append_left (by omega), List.getElem?_take_of_lt hbefore]
    · rw [List.getElem?_append_right (by omega), hpos, List.getElem?_append_right (by omega),
        List.getElem?_drop]
      congr 1
      omega

/-- A slice without holes stays. -/
lemma slice {i k : ℕ} {out : List α} (h : Keeps n holes bs bs')
    (hs : Lib.slice bs i k = some out) (hout : ∀ p ∈ holes, k ≤ p ∨ p + n ≤ i) :
    Lib.slice bs' i k = some out := by
  obtain ⟨hik, hk, rfl⟩ := slice_eq_some.mp hs
  refine slice_eq_some.mpr ⟨hik, hk.trans h.grows, ?_⟩
  ext1 j
  rw [List.getElem?_take, List.getElem?_take]
  split
  · next hj =>
      rw [List.getElem?_drop, List.getElem?_drop]
      refine h.same (i + j) (by omega) fun p hp => ?_
      have := hout p hp
      omega
  · rfl

/-- Without holes every slice stays. -/
lemma slice_of_nil {i k : ℕ} {out : List α} (h : Keeps n [] bs bs')
    (hs : Lib.slice bs i k = some out) : Lib.slice bs' i k = some out :=
  h.slice hs fun _ hp => absurd hp List.not_mem_nil

end Keeps

end Lib
