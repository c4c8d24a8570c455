import Mathlib.Tactic.Common
import Mathlib.Data.List.Basic

/-!
# Bounded queues

A queue that holds at most `cap` values, newest first: a value is pushed in front and the
oldest fall off.  After `vs` have been pushed, oldest first, it is `pushAll cap vs q`.
-/

namespace Lib

variable {α : Type}

/-- The queue after `vs` have been pushed onto `q`, in that order. -/
def pushAll (cap : ℕ) (vs q : List α) : List α := (vs.reverse ++ q).take cap

/-- A queue that fits is left alone by nothing. -/
@[simp] lemma pushAll_nil {cap : ℕ} {q : List α} (hq : q.length ≤ cap) : pushAll cap [] q = q :=
  List.take_of_length_le hq

lemma pushAll_cons (cap : ℕ) (v : α) (vs q : List α) :
    pushAll cap (v :: vs) q = pushAll cap vs (pushAll cap [v] q) := by
  simp only [pushAll, List.reverse_cons, List.reverse_nil, List.nil_append, List.append_assoc,
    List.singleton_append]
  rw [List.take_append, List.take_append, List.take_take, Nat.min_eq_left (Nat.sub_le _ _)]

/-- No value is in the queue when it is pushed. -/
def Fresh (cap : ℕ) (q : List α) : List α → Prop
  | [] => True
  | v :: vs => v ∉ q ∧ Fresh cap (pushAll cap [v] q) vs

/-- The last of some fresh values is not in the queue before it. -/
lemma Fresh.last {cap : ℕ} {q : List α} (hq : q.length ≤ cap) {vs : List α} {v : α}
    (h : Fresh cap q (vs ++ [v])) : v ∉ pushAll cap vs q := by
  induction vs generalizing q with
  | nil =>
      rw [pushAll_nil hq]
      exact h.1
  | cons u vs ih =>
      rw [pushAll_cons]
      exact ih (List.length_take_le _ _) h.2

/-- Fresh values restore a queue only by filling it anew with what it held. -/
theorem pushAll_eq_self_iff {cap : ℕ} {q vs : List α} (hq : q.length ≤ cap)
    (hfresh : Fresh cap q vs) :
    pushAll cap vs q = q ↔ vs = [] ∨ cap < vs.length ∧ vs.reverse.take cap = q := by
  constructor
  · intro h
    rcases List.eq_nil_or_concat vs with rfl | ⟨us, v, rfl⟩
    · exact Or.inl rfl
    right
    rw [List.concat_eq_append] at hfresh h ⊢
    have hlast := hfresh.last hq
    have hlen : cap < (us ++ [v]).length := by
      by_contra hle
      rw [List.length_append, List.length_singleton] at hle
      -- the old first value is still in the queue, and it is the one pushed last
      obtain ⟨cap, rfl⟩ : ∃ k, cap = k + 1 := ⟨cap - 1, by omega⟩
      rw [pushAll, List.reverse_append, List.reverse_singleton, List.singleton_append,
        List.cons_append, List.take_succ_cons] at h
      apply hlast
      rw [pushAll, ← h, List.mem_take_iff_getElem]
      refine ⟨us.length, ?_, ?_⟩
      · simp only [List.length_append, List.length_reverse, List.length_cons]
        omega
      · simp
    refine ⟨hlen, ?_⟩
    rw [pushAll, List.take_append_of_le_length (by rw [List.length_reverse]; omega)] at h
    exact h
  · rintro (rfl | ⟨hlen, h⟩)
    · exact pushAll_nil hq
    · rw [pushAll, List.take_append_of_le_length (by rw [List.length_reverse]; omega), h]

end Lib
