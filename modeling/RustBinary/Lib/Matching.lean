import RustBinary.Lib.Act

/-!
# Two actions side by side

One program on two kinds of state: from states that are related the two runs come back alike, and
the states that they leave are related again.
-/

namespace Lib.Act

variable {σ τ ε ε' α β : Type} {R : σ → τ → Prop}

/-- From related states `m` and `n` come back alike and leave related states. -/
def Matches (R : σ → τ → Prop) (m : Act σ ε α) (n : Act τ ε α) : Prop :=
  ∀ s t, R s t → (m s).1 = (n t).1 ∧ R (m s).2 (n t).2

lemma matches_pure (a : α) : Matches R (pure a : Act σ ε α) (pure a) := fun _ _ h => ⟨rfl, h⟩

lemma matches_throw (e : ε) : Matches R (throw e : Act σ ε α) (throw e) := fun _ _ h => ⟨rfl, h⟩

lemma matches_panic : Matches R (panic : Act σ ε α) panic := fun _ _ h => ⟨rfl, h⟩

lemma matches_call (o : Outcome ε α) : Matches R (call o : Act σ ε α) (call o) :=
  fun _ _ h => ⟨rfl, h⟩

lemma matches_modify {f : σ → σ} {g : τ → τ} (h : ∀ s t, R s t → R (f s) (g t)) :
    Matches R (modify f : Act σ ε Unit) (modify g) := fun s t hst => ⟨rfl, h s t hst⟩

lemma matches_get_bind {f : σ → Act σ ε α} {g : τ → Act τ ε α}
    (h : ∀ s t, R s t → Matches R (f s) (g t)) : Matches R (get >>= f) (get >>= g) := by
  intro s t hst
  rw [get_bind_run, get_bind_run]
  exact h s t hst s t hst

namespace Matches

variable {m : Act σ ε α} {n : Act τ ε α}

lemma bind {f : α → Act σ ε β} {g : α → Act τ ε β} (h : Matches R m n)
    (hfg : ∀ a, Matches R (f a) (g a)) : Matches R (m >>= f) (n >>= g) := by
  intro s t hst
  obtain ⟨h1, h2⟩ := h s t hst
  rw [bind_run, bind_run]
  rcases hs : m s with ⟨a | e | _ | _, s'⟩ <;> rcases ht : n t with ⟨a' | e' | _ | _, t'⟩ <;>
    rw [hs, ht] at h1 h2 <;> simp only [Outcome.ok.injEq, Outcome.err.injEq, reduceCtorEq] at h1
  · subst h1
    exact hfg a s' t' h2
  · subst h1
    exact ⟨rfl, h2⟩
  · exact ⟨rfl, h2⟩
  · exact ⟨rfl, h2⟩

lemma onErr {f : ε → Act σ ε' α} {g : ε → Act τ ε' α} (h : Matches R m n)
    (hfg : ∀ e, Matches R (f e) (g e)) : Matches R (m.onErr f) (n.onErr g) := by
  intro s t hst
  obtain ⟨h1, h2⟩ := h s t hst
  rw [Act.onErr, Act.onErr]
  rcases hs : m s with ⟨a | e | _ | _, s'⟩ <;> rcases ht : n t with ⟨a' | e' | _ | _, t'⟩ <;>
    rw [hs, ht] at h1 h2 <;> simp only [Outcome.ok.injEq, Outcome.err.injEq, reduceCtorEq] at h1
  · subst h1
    exact ⟨rfl, h2⟩
  · subst h1
    exact hfg e s' t' h2
  · exact ⟨rfl, h2⟩
  · exact ⟨rfl, h2⟩

lemma ite {c : Prop} [Decidable c] {m' : Act σ ε α} {n' : Act τ ε α} (h : Matches R m n)
    (h' : Matches R m' n') : Matches R (if c then m else m') (if c then n else n') := by
  split
  · exact h
  · exact h'

end Matches

lemma matches_okOr (o : Option α) (e : ε) : Matches R (okOr o e : Act σ ε α) (okOr o e) := by
  cases o with
  | none => exact matches_throw e
  | some a => exact matches_pure a

lemma matches_atMost (limit : Option ℕ) (n : ℕ) (e : ℕ → ε) :
    Matches R (atMost limit n e : Act σ ε Unit) (atMost limit n e) := by
  cases limit with
  | none => exact matches_pure ()
  | some l => exact (matches_throw (e l)).ite (matches_pure ())

end Lib.Act
