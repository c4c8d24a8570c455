import Mathlib.Algebra.BigOperators.Group.List.Basic
import Mathlib.Data.List.Dedup
import Mathlib.Tactic.Abel

/-!
# Linear sketches

Every element contributes a value of a commutative group, and the sketch of a collection is
the sum of the contributions.  The difference of two sketches only depends on the elements
that one collection has and the other lacks, and taking an element out of a collection takes
its contribution out of the sketch.
-/

namespace Lib.Sketch

variable {E G : Type*} [AddCommGroup G] (c : E → G)

/-- The sum of the contributions of `A`. -/
def sketch (A : List E) : G := (A.map c).sum

/-- The sketch of `A` without that of `B`. -/
def difference (A B : List E) : G := sketch c A - sketch c B

@[simp] lemma sketch_nil : sketch c [] = 0 := rfl

lemma sketch_cons (e : E) (A : List E) : sketch c (e :: A) = c e + sketch c A := by
  rw [sketch, List.map_cons, List.sum_cons]
  rfl

lemma sketch_append (A B : List E) : sketch c (A ++ B) = sketch c A + sketch c B := by
  rw [sketch, List.map_append, List.sum_append]
  rfl

variable {c} in
lemma sketch_perm {A B : List E} (h : A.Perm B) : sketch c A = sketch c B :=
  (h.map c).sum_eq

variable [BEq E] [LawfulBEq E] {A B : List E} {e : E}

lemma sketch_erase (he : e ∈ A) : sketch c (A.erase e) = sketch c A - c e := by
  rw [sketch_perm (List.perm_cons_erase he), sketch_cons, add_sub_cancel_left]

lemma difference_erase_left (he : e ∈ A) :
    difference c (A.erase e) B = difference c A B - c e := by
  rw [difference, difference, sketch_erase c he]
  abel

lemma difference_erase_right (he : e ∈ B) :
    difference c A (B.erase e) = difference c A B + c e := by
  rw [difference, difference, sketch_erase c he]
  abel

/-- What two collections have in common cancels. -/
lemma difference_filter (hA : A.Nodup) (hB : B.Nodup) :
    difference c (A.filter (· ∉ B)) (B.filter (· ∉ A)) = difference c A B := by
  have hcommon : (A.filter (· ∈ B)).Perm (B.filter (· ∈ A)) := by
    refine (List.perm_ext_iff_of_nodup (hA.filter _) (hB.filter _)).mpr fun e => ?_
    simp only [List.mem_filter, decide_eq_true_iff]
    exact and_comm
  have hsplit : ∀ X Y : List E,
      sketch c X = sketch c (X.filter (· ∈ Y)) + sketch c (X.filter (· ∉ Y)) := by
    intro X Y
    rw [← sketch_append]
    refine (sketch_perm ?_).symm
    simpa only [decide_not] using List.filter_append_perm (fun e => decide (e ∈ Y)) X
  rw [difference, difference, hsplit A B, hsplit B A, sketch_perm hcommon]
  abel

end Lib.Sketch
