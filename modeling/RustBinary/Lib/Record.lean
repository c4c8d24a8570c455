import RustBinary.Lib.Act

/-!
# A record beside the state

An action can be run with a record `ω` beside its state, of the work that it does or of the states
it goes through.  The record changes nothing: what `Traces m n` says is that `m` comes back with
what `n` comes back with, and leaves the state that `n` leaves.

* `Act.beside`: an action of which nothing is recorded;
* `Act.record`: a change of the record alone;
* `Act.Traces`: closed under sequencing and loops.
-/

namespace Lib.Act

variable {σ ω ε α β γ : Type}

/-- The action `m`, of which nothing is recorded. -/
def beside (m : Act σ ε α) : Act (σ × ω) ε α :=
  fun s => ((m s.1).1, ((m s.1).2, s.2))

/-- Change the record. -/
def record (f : ω → ω) : Act (σ × ω) ε Unit := modify fun s => (s.1, f s.2)

@[simp] lemma beside_run (m : Act σ ε α) (s : σ × ω) :
    beside m s = ((m s.1).1, ((m s.1).2, s.2)) := rfl

@[simp] lemma record_bind_run (f : ω → ω) (g : Unit → Act (σ × ω) ε α) (s : σ × ω) :
    (record f >>= g) s = g () (s.1, f s.2) := rfl

/-- From every state, `m` does what `n` does. -/
def Traces (m : Act (σ × ω) ε α) (n : Act σ ε α) : Prop :=
  ∀ s, ((m s).1, (m s).2.1) = n s.1

lemma traces_beside (m : Act σ ε α) : Traces (beside m : Act (σ × ω) ε α) m := fun _ => rfl

lemma traces_pure (a : α) : Traces (pure a : Act (σ × ω) ε α) (pure a) := fun _ => rfl

lemma traces_throw (e : ε) : Traces (throw e : Act (σ × ω) ε α) (throw e) := fun _ => rfl

lemma Traces.bind {m : Act (σ × ω) ε α} {n : Act σ ε α} {f : α → Act (σ × ω) ε β}
    {g : α → Act σ ε β} (hm : Traces m n) (hf : ∀ a, Traces (f a) (g a)) :
    Traces (m >>= f) (n >>= g) := by
  intro s
  have h := hm s
  rw [bind_run, bind_run, ← h]
  rcases m s with ⟨a | e | _ | _, s'⟩
  · exact hf a s'
  · rfl
  · rfl
  · rfl

lemma Traces.record_bind {f : Unit → Act (σ × ω) ε α} {n : Act σ ε α} {g : ω → ω}
    (hf : Traces (f ()) n) : Traces (record g >>= f) n := fun s => hf (s.1, g s.2)

lemma Traces.ite {c : Prop} [Decidable c] {m m' : Act (σ × ω) ε α} {n n' : Act σ ε α}
    (h : Traces m n) (h' : Traces m' n') : Traces (if c then m else m') (if c then n else n') := by
  split
  · exact h
  · exact h'

lemma Traces.iterate {body : β → Act (σ × ω) ε (β ⊕ α)} {body' : β → Act σ ε (β ⊕ α)}
    (h : ∀ b, Traces (body b) (body' b)) (n : ℕ) (b : β) :
    Traces (iterate body n b) (iterate body' n b) := by
  induction n generalizing b with
  | zero => exact fun _ => rfl
  | succ n ih =>
      refine (h b).bind fun next => ?_
      cases next with
      | inl b' => exact ih b'
      | inr a => exact traces_pure a

lemma Traces.fst_eq {m : Act (σ × ω) ε α} {n : Act σ ε α} (h : Traces m n) (s : σ × ω) :
    (m s).1 = (n s.1).1 := congrArg Prod.fst (h s)

end Lib.Act
