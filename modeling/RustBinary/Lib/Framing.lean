import RustBinary.Lib.Run

/-!
# Streams of frames

The state of a reader is the stream that it has not read yet, and a call is meant to take the frame
at the front off it.  Calls stay in sync with the frames as long as every one of them leaves the
stream as it stands behind the frame, whatever it answers.
-/

namespace Lib

variable {κ ρ α β : Type} {step : κ → List β → ρ × List β} {frame : α → List β}

/-- However many calls are made for the frames of `xs`, each one is answered as it would be if its
frame was alone on the stream, and the frames that are left are still there. -/
def InSync (step : κ → List β → ρ × List β) (frame : α → List β) (xs : List α)
    (rest : List β) : Prop :=
  ∀ calls : List κ, calls.length ≤ xs.length →
    run step calls (xs.flatMap frame ++ rest) =
      (List.zipWith (fun c x => (step c (frame x)).1) calls xs,
        (xs.drop calls.length).flatMap frame ++ rest)

lemma inSync_nil (rest : List β) : InSync step frame [] rest := by
  intro calls hlen
  obtain rfl := List.length_eq_zero_iff.mp (Nat.le_zero.mp hlen)
  rfl

/-- Calls stay in sync when the first one takes its frame and the others stay in sync. -/
lemma inSync_cons {x : α} {xs : List α} {rest : List β} :
    InSync step frame (x :: xs) rest ↔
      (∀ c, step c (frame x ++ (xs.flatMap frame ++ rest)) =
        ((step c (frame x)).1, xs.flatMap frame ++ rest)) ∧ InSync step frame xs rest := by
  have hstream : (x :: xs).flatMap frame ++ rest = frame x ++ (xs.flatMap frame ++ rest) := by
    rw [List.flatMap_cons, List.append_assoc]
  constructor
  · intro h
    have hfirst : ∀ c, step c (frame x ++ (xs.flatMap frame ++ rest)) =
        ((step c (frame x)).1, xs.flatMap frame ++ rest) := by
      intro c
      have hrun := h [c] (by simp)
      rw [hstream, run_cons, Prod.mk.injEq] at hrun
      exact Prod.ext (List.head_eq_of_cons_eq hrun.1) hrun.2
    refine ⟨hfirst, fun calls hlen => ?_⟩
    cases calls with
    | nil => rfl
    | cons c calls =>
        -- the same calls one frame later, behind any call
        have hrun := h (c :: c :: calls) (Nat.succ_le_succ hlen)
        rw [hstream, run_cons_of (hfirst c), Prod.mk.injEq] at hrun
        exact Prod.ext (List.tail_eq_of_cons_eq hrun.1) hrun.2
  · rintro ⟨hfirst, htail⟩ calls hlen
    cases calls with
    | nil => rfl
    | cons c calls =>
        rw [hstream, run_cons_of (hfirst c), htail calls (Nat.le_of_succ_le_succ hlen)]
        rfl

end Lib
