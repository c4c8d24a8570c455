import RustBinary.Cbor.Primitive

/-!
# The reachable states of the CBOR decoder

Three facts hold of a decoder whatever calls have been made on it, whatever marks it was
restored to and whichever of the calls failed: the stack of open containers is no higher
than the depth, the depth stays within the counter table, and the counters at and above the
depth are zero.
-/

namespace RustBinary.Cbor

open Lib Lib.Act CborDecoder

/-- The invariant of the decoder. -/
structure Inv (s : CborDecoder) : Prop where
  frames_le : s.frames.length ≤ s.depth
  depth_le : s.depth ≤ maxDepth
  counts_zero : ∀ (i : ℕ) (hi : i < maxDepth), s.depth ≤ i → s.counts[i] = 0

/-- The states that calls on a new decoder lead to. -/
def Reachable (narrow : Number → Option UInt8) (s : CborDecoder) : Prop :=
  ∃ input config calls, s = (run (step narrow) calls (new input config)).2

lemma inv_new (input : Input) (config : Config) : Inv (new input config) where
  frames_le := Nat.le_refl 0
  depth_le := Nat.zero_le _
  counts_zero := fun i hi _ => by simp [new]

/-- The invariant only depends on the stack, the depth and the counters. -/
lemma Inv.of_eq {s t : CborDecoder} (h : Inv s) (hf : t.frames.length = s.frames.length)
    (hd : t.depth = s.depth) (hc : t.counts = s.counts) : Inv t where
  frames_le := by rw [hf, hd]; exact h.frames_le
  depth_le := by rw [hd]; exact h.depth_le
  counts_zero := fun i hi hle => by
    rw [hd] at hle
    simpa [hc] using h.counts_zero i hi hle

lemma primitive_inv : Primitive fun _ m => Moves (fun s t => Inv s → Inv t) m := by
  refine primitive_moves (fun _ h => h) (fun _ _ _ h1 h2 h => h2 (h1 h)) ?_ ?_ ?_ ?_ ?_ ?_
  · exact fun s e h => h.of_eq rfl rfl rfl
  · exact fun s n h => h.of_eq rfl rfl rfl
  · exact fun s h => h.of_eq rfl rfl rfl
  · intro s kind next hlast h
    refine h.of_eq ?_ rfl rfl
    rw [List.length_append, List.length_dropLast, List.length_singleton]
    have hne : s.frames ≠ [] := by
      rintro hnil
      simp [hnil] at hlast
    have := List.length_pos_iff.mpr hne
    omega
  · intro s frame hd h
    refine ⟨?_, Nat.succ_le_of_lt hd, fun i hi hle => h.counts_zero i hi ?_⟩
    · have := h.frames_le
      simpa using this
    · simp only at hle
      omega
  · intro s index count hi hd h
    refine ⟨h.frames_le, h.depth_le, fun i hi' hle => ?_⟩
    simp only at hle
    rw [Vector.getElem_set_ne _ _ (by omega)]
    exact h.counts_zero i hi' hle

lemma inv_popFrame (kind : ContainerKind) :
    Moves (fun s t => Inv s → Inv t) (popFrame kind) := by
  intro s h
  rcases popFrame_cases s kind with ⟨d, hd, definite, hdepth, hlast, heq⟩ | ⟨-, e, heq⟩ |
    ⟨-, -, heq⟩
  · rw [heq]
    refine ⟨?_, by simp only; omega, fun i hi hle => ?_⟩
    · have := h.frames_le
      simp only [List.length_dropLast]
      omega
    · simp only at hle ⊢
      by_cases hid : i = d
      · subst hid
        simp
      · rw [Vector.getElem_set_ne _ _ (Ne.symm hid)]
        exact h.counts_zero i hi (by omega)
  · rw [heq]
    exact h.of_eq rfl rfl rfl
  · rw [heq]
    exact h

lemma inv_restore (mark : Mark) : Moves (fun s t => Inv s → Inv t) (restore mark) := by
  intro s h
  refine ⟨?_, Nat.min_le_right _ _, fun i hi hle => ?_⟩
  · simp only [restore, modify_run, List.length_take]
    omega
  · simp only [restore, modify_run] at hle ⊢
    rw [getElem_clearFrom]
    exact if_neg (Nat.not_lt.mpr hle)

/-- Every call keeps the invariant. -/
lemma inv_step (narrow : Number → Option UInt8) (call : CborCall) {s : CborDecoder}
    (h : Inv s) : Inv (step narrow call s).2 :=
  primitive_inv.method narrow call inv_popFrame (fun mark _ => inv_restore mark)
    (fun _ _ h => h.of_eq rfl rfl rfl) (fun _ _ h => h.of_eq rfl rfl rfl) s h

/-- The invariant holds of every reachable decoder. -/
theorem inv_of_reachable {narrow : Number → Option UInt8} {s : CborDecoder}
    (h : Reachable narrow s) : Inv s := by
  obtain ⟨input, config, calls, rfl⟩ := h
  exact run_preserves (fun call s => inv_step narrow call) calls (inv_new input config)

end RustBinary.Cbor
