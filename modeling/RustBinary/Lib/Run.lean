import Mathlib.Tactic.Common

/-!
# Runs of a machine that answers calls

A machine in a state of type `σ` answers a call of type `κ` with an answer of type `ρ` and
moves to its next state.  `run step cs s` makes the calls `cs` one after the other from `s`,
collects the answers, whether they report success or failure, and gives the last state.
-/

namespace Lib

variable {κ σ ρ : Type}

/-- The answers to the calls `cs` made from `s`, and the state after them. -/
def run (step : κ → σ → ρ × σ) : List κ → σ → List ρ × σ
  | [], s => ([], s)
  | c :: cs, s => ((step c s).1 :: (run step cs (step c s).2).1, (run step cs (step c s).2).2)

/-- `P` holds in `s` and in every state that the calls `cs` lead to from `s`. -/
def Along (step : κ → σ → ρ × σ) (P : σ → Prop) : List κ → σ → Prop
  | [], s => P s
  | c :: cs, s => P s ∧ Along step P cs (step c s).2

/-- `Q` holds of every call of `cs` and the state that it is made in, from `s` on. -/
def EachCall (step : κ → σ → ρ × σ) (Q : κ → σ → Prop) : List κ → σ → Prop
  | [], _ => True
  | c :: cs, s => Q c s ∧ EachCall step Q cs (step c s).2

/-- Every sequence of calls gets the same answers from `t` as from `s` and leads from them to
states that look the same. -/
def SameBehaviour {τ : Type} (step : κ → σ → ρ × σ) (view : σ → τ) (s t : σ) : Prop :=
  ∀ cs, (run step cs t).1 = (run step cs s).1 ∧ view (run step cs t).2 = view (run step cs s).2

instance decidableAlong (step : κ → σ → ρ × σ) (P : σ → Prop) [DecidablePred P] :
    ∀ cs s, Decidable (Along step P cs s)
  | [], s => inferInstanceAs (Decidable (P s))
  | c :: cs, s =>
      have := decidableAlong step P cs (step c s).2
      inferInstanceAs (Decidable (P s ∧ Along step P cs (step c s).2))

section

variable {step : κ → σ → ρ × σ}

@[simp] lemma run_nil (s : σ) : run step [] s = ([], s) := rfl

@[simp] lemma run_cons (c : κ) (cs : List κ) (s : σ) :
    run step (c :: cs) s =
      ((step c s).1 :: (run step cs (step c s).2).1, (run step cs (step c s).2).2) := rfl

lemma run_append (cs ds : List κ) (s : σ) :
    run step (cs ++ ds) s =
      ((run step cs s).1 ++ (run step ds (run step cs s).2).1,
        (run step ds (run step cs s).2).2) := by
  induction cs generalizing s with
  | nil => rfl
  | cons c cs ih => simp [ih]

lemma run_cons_of {c : κ} {cs : List κ} {s t : σ} {o : ρ} (h : step c s = (o, t)) :
    run step (c :: cs) s = (o :: (run step cs t).1, (run step cs t).2) := by
  rw [run_cons, h]

lemma run_append_of {cs ds : List κ} {s t : σ} {os : List ρ} (h : run step cs s = (os, t)) :
    run step (cs ++ ds) s = (os ++ (run step ds t).1, (run step ds t).2) := by
  rw [run_append, h]

@[simp] lemma length_run (cs : List κ) (s : σ) : (run step cs s).1.length = cs.length := by
  induction cs generalizing s with
  | nil => rfl
  | cons c cs ih => simp [ih]

/-- The answers to the first calls of a run are the first answers. -/
lemma run_append_left {cs ds : List κ} {s : σ} {os ps : List ρ}
    (h : (run step (cs ++ ds) s).1 = os ++ ps) (hlen : os.length = cs.length) :
    (run step cs s).1 = os := by
  rw [run_append] at h
  exact (List.append_inj h (by rw [length_run, hlen])).1

/-- What every call preserves holds after a run. -/
lemma run_preserves {P : σ → Prop} (hstep : ∀ c s, P s → P (step c s).2) (cs : List κ)
    {s : σ} (h : P s) : P (run step cs s).2 := by
  induction cs generalizing s with
  | nil => exact h
  | cons c cs ih => exact ih (hstep c s h)

/-- What the calls of one kind preserve holds after a run of such calls. -/
lemma run_preserves_of {P : σ → Prop} {Q : κ → Prop}
    (hstep : ∀ c s, Q c → P s → P (step c s).2) {cs : List κ} (hcalls : ∀ c ∈ cs, Q c) {s : σ}
    (h : P s) : P (run step cs s).2 := by
  induction cs generalizing s with
  | nil => exact h
  | cons c cs ih =>
      obtain ⟨hfirst, hrest⟩ := List.forall_mem_cons.mp hcalls
      exact ih hrest (hstep c s hfirst h)

/-- What every call preserves holds along a run. -/
lemma along_of_preserves {P : σ → Prop} (hstep : ∀ c s, P s → P (step c s).2) (cs : List κ)
    {s : σ} (h : P s) : Along step P cs s := by
  induction cs generalizing s with
  | nil => exact h
  | cons c cs ih => exact ⟨h, ih (hstep c s h)⟩

lemma Along.head {P : σ → Prop} {cs : List κ} {s : σ} (h : Along step P cs s) : P s := by
  cases cs with
  | nil => exact h
  | cons c cs => exact h.1

/-- What holds of the answer to a call exactly when `Q` holds of the call, in every state
that keeps `P`, holds of all answers of a run exactly when `Q` holds of each of its calls. -/
lemma run_forall_iff {P : σ → Prop} {Q : κ → σ → Prop} {A : ρ → Prop}
    (hstep : ∀ c s, P s → P (step c s).2) (hiff : ∀ c s, P s → (A (step c s).1 ↔ Q c s))
    (cs : List κ) {s : σ} (h : P s) :
    (∀ o ∈ (run step cs s).1, A o) ↔ EachCall step Q cs s := by
  induction cs generalizing s with
  | nil => simp [EachCall]
  | cons c cs ih =>
      rw [run_cons, List.forall_mem_cons, EachCall, hiff c s h, ih (hstep c s h)]

/-- Two states that a bisimulation relates answer every sequence of calls alike, and are
still related after it. -/
lemma run_bisim {R : σ → σ → Prop}
    (hstep : ∀ c s t, R s t → (step c s).1 = (step c t).1 ∧ R (step c s).2 (step c t).2)
    (cs : List κ) {s t : σ} (h : R s t) :
    (run step cs s).1 = (run step cs t).1 ∧ R (run step cs s).2 (run step cs t).2 := by
  induction cs generalizing s t with
  | nil => exact ⟨rfl, h⟩
  | cons c cs ih =>
      obtain ⟨hout, hnext⟩ := hstep c s t h
      obtain ⟨h1, h2⟩ := ih hnext
      exact ⟨by simp [hout, h1], h2⟩

/-- States that a bisimulation relates behave alike, if it relates only what looks the same. -/
lemma sameBehaviour_of_bisim {τ : Type} {view : σ → τ} {R : σ → σ → Prop}
    (hstep : ∀ c s t, R s t → (step c s).1 = (step c t).1 ∧ R (step c s).2 (step c t).2)
    (hview : ∀ s t, R s t → view t = view s) {s t : σ} (h : R s t) :
    SameBehaviour step view s t := by
  intro cs
  obtain ⟨hout, hend⟩ := run_bisim hstep cs h
  exact ⟨hout.symm, hview _ _ hend⟩

/-- A transitive relation that holds across every call whose two ends satisfy `P` holds
across a run along which `P` holds. -/
lemma run_rel {R : σ → σ → Prop} {P : σ → Prop} (hr : ∀ s, R s s)
    (ht : ∀ s t u, R s t → R t u → R s u)
    (hstep : ∀ c s, P s → P (step c s).2 → R s (step c s).2) (cs : List κ) {s : σ}
    (h : Along step P cs s) : R s (run step cs s).2 := by
  induction cs generalizing s with
  | nil => exact hr s
  | cons c cs ih => exact ht _ _ _ (hstep c s h.1 h.2.head) (ih h.2)

end

end Lib
