import Mathlib.Data.List.Basic

/-!
# Repetitions in a text

The tokens of a sliding-window compressor: a literal, or a copy of what lies a distance behind.
A copy may be longer than its distance; it then repeats what it has itself written.
-/

namespace Lib

/-- A token. -/
inductive Token (α : Type) where
  | literal (a : α)
  | copy (length distance : ℕ)

variable {α : Type} {input : List α} {tokens : List (Token α)} {pos length distance : ℕ}

/-- The `length` elements at `pos` are those `distance` before them. -/
structure Repeats (input : List α) (pos length distance : ℕ) : Prop where
  pos_distance : 0 < distance
  distance_le : distance ≤ pos
  end_le : pos + length ≤ input.length
  same : ∀ i < length, input[pos - distance + i]? = input[pos + i]?

/-- The tokens describe the text from `pos` on. -/
inductive Describes (input : List α) : ℕ → List (Token α) → Prop
  | done : Describes input input.length []
  | literal {pos : ℕ} {a : α} {tokens : List (Token α)} (h : input[pos]? = some a)
      (rest : Describes input (pos + 1) tokens) : Describes input pos (.literal a :: tokens)
  | copy {pos length distance : ℕ} {tokens : List (Token α)} (hpos : 0 < length)
      (h : Repeats input pos length distance) (rest : Describes input (pos + length) tokens) :
      Describes input pos (.copy length distance :: tokens)

/-- What has been written so far holds the next element of a copy. -/
lemma Repeats.getElem?_take (h : Repeats input pos length distance) {i : ℕ} (hi : i < length) :
    (input.take (pos + i))[pos + i - distance]? = input[pos + i]? := by
  have hpos := h.pos_distance
  have hle := h.distance_le
  rw [List.getElem?_take_of_lt (by omega), ← h.same i hi,
    show pos + i - distance = pos - distance + i by omega]

lemma take_append_getElem? {a : α} (h : input[pos]? = some a) :
    input.take pos ++ [a] = input.take (pos + 1) := by
  rw [List.take_add_one, h]
  rfl

lemma Describes.le (h : Describes input pos tokens) : pos ≤ input.length := by
  cases h with
  | done => exact Nat.le_refl _
  | literal h _ => exact Nat.le_of_lt (List.getElem?_eq_some_iff.mp h).1
  | copy _ h _ => exact Nat.le_trans (Nat.le_add_right _ _) h.end_le

end Lib
