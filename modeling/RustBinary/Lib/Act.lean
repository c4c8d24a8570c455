import RustBinary.Lib.Outcome
import Mathlib.Logic.Relation

/-!
# Actions on a mutable state

A method that takes `&mut self` and returns a `Result` is read here as an *action*: a
function from the state it is called in to what it comes back with and the state it leaves
behind.  The state survives a failure, as it does behind a mutable reference.

* `Act.Closed P`: the property `P` of actions survives sequencing and loops;
* `Act.Moves R m`: every run of `m` moves the state along the relation `R`;
* `Act.Respects R m`: runs of `m` from related states come back alike, in related states;
* `Act.iterate`: the loop, driven by a body that either asks for another round or breaks;
* `Act.Visits`: the states at which a round of such a loop starts.
-/

namespace Lib

/-- An action on the state `σ` with errors `ε` and values `α`. -/
def Act (σ ε α : Type) : Type := σ → Outcome ε α × σ

namespace Act

variable {σ ε ε' α β γ : Type}

instance : Monad (Act σ ε) where
  pure a := fun s => (.ok a, s)
  bind m f := fun s =>
    match m s with
    | (.ok a, t) => f a t
    | (.err e, t) => (.err e, t)
    | (.panic, t) => (.panic, t)
    | (.diverge, t) => (.diverge, t)

/-- The state. -/
def get : Act σ ε σ := fun s => (.ok s, s)

/-- Change the state. -/
def modify (f : σ → σ) : Act σ ε Unit := fun s => (.ok (), f s)

/-- Fail with `e`. -/
def throw (e : ε) : Act σ ε α := fun s => (.err e, s)

/-- Abort. -/
def panic : Act σ ε α := fun s => (.panic, s)

/-- A loop out of rounds. -/
def diverge : Act σ ε α := fun s => (.diverge, s)

/-- A call that has nothing to do with the state. -/
def call (o : Outcome ε α) : Act σ ε α := fun s => (o, s)

/-- The value of `o`, or the error `e` when there is none. -/
def okOr (o : Option α) (e : ε) : Act σ ε α :=
  match o with
  | some a => pure a
  | none => throw e

/-- Fail with `e limit` when `n` is above the `limit`, if there is one. -/
def atMost (limit : Option ℕ) (n : ℕ) (e : ℕ → ε) : Act σ ε Unit :=
  match limit with
  | some l => if l < n then throw (e l) else pure ()
  | none => pure ()

/-- Run `m`; when it fails with `e`, go on with `h e`. -/
def onErr (m : Act σ ε α) (h : ε → Act σ ε' α) : Act σ ε' α := fun s =>
  match m s with
  | (.ok a, t) => (.ok a, t)
  | (.err e, t) => h e t
  | (.panic, t) => (.panic, t)
  | (.diverge, t) => (.diverge, t)

/-- The loop with body `body` and accumulator `b`: a round gives the accumulator of the
next round (`Sum.inl`) or breaks with the value of the loop (`Sum.inr`). -/
def iterate (body : β → Act σ ε (β ⊕ α)) : ℕ → β → Act σ ε α
  | 0, _ => diverge
  | n + 1, b => do
      match ← body b with
      | .inl b' => iterate body n b'
      | .inr a => pure a

/-! ## Running an action -/

@[simp] lemma pure_run (a : α) (s : σ) : (pure a : Act σ ε α) s = (.ok a, s) := rfl

@[simp] lemma get_run (s : σ) : (get : Act σ ε σ) s = (.ok s, s) := rfl

@[simp] lemma modify_run (f : σ → σ) (s : σ) :
    (modify f : Act σ ε Unit) s = (.ok (), f s) := rfl

@[simp] lemma throw_run (e : ε) (s : σ) : (throw e : Act σ ε α) s = (.err e, s) := rfl

@[simp] lemma panic_run (s : σ) : (panic : Act σ ε α) s = (.panic, s) := rfl

@[simp] lemma diverge_run (s : σ) : (diverge : Act σ ε α) s = (.diverge, s) := rfl

@[simp] lemma call_run (o : Outcome ε α) (s : σ) : (call o : Act σ ε α) s = (o, s) := rfl

@[simp] lemma okOr_some (a : α) (e : ε) : (okOr (some a) e : Act σ ε α) = pure a := rfl

@[simp] lemma okOr_none (e : ε) : (okOr none e : Act σ ε α) = throw e := rfl

/-- A limit that is kept, or is not there, does nothing; one that is not kept is the error. -/
lemma atMost_cases (limit : Option ℕ) (n : ℕ) (e : ℕ → ε) :
    ((∀ l, limit = some l → n ≤ l) ∧ (atMost limit n e : Act σ ε Unit) = pure ()) ∨
      ∃ l, limit = some l ∧ l < n ∧ (atMost limit n e : Act σ ε Unit) = throw (e l) := by
  cases limit with
  | none => exact .inl ⟨fun _ h => by simp at h, rfl⟩
  | some l =>
      by_cases h : l < n
      · exact .inr ⟨l, rfl, h, if_pos h⟩
      · exact .inl ⟨fun _ h' => by cases h'; omega, if_neg h⟩

lemma atMost_of_le {limit : Option ℕ} {n : ℕ} (h : ∀ l, limit = some l → n ≤ l) (e : ℕ → ε) :
    (atMost limit n e : Act σ ε Unit) = pure () := by
  rcases atMost_cases limit n e with ⟨_, h'⟩ | ⟨l, hl, hlt, _⟩
  · exact h'
  · exact absurd (h l hl) (Nat.not_le.mpr hlt)

lemma bind_run (m : Act σ ε α) (f : α → Act σ ε β) (s : σ) :
    (m >>= f) s =
      match m s with
      | (.ok a, t) => f a t
      | (.err e, t) => (.err e, t)
      | (.panic, t) => (.panic, t)
      | (.diverge, t) => (.diverge, t) := rfl

lemma bind_of_ok {m : Act σ ε α} {f : α → Act σ ε β} {s t : σ} {a : α}
    (h : m s = (.ok a, t)) : (m >>= f) s = f a t := by
  rw [bind_run, h]

lemma bind_of_err {m : Act σ ε α} {f : α → Act σ ε β} {s t : σ} {e : ε}
    (h : m s = (.err e, t)) : (m >>= f) s = (.err e, t) := by
  rw [bind_run, h]

lemma bind_of_panic {m : Act σ ε α} {f : α → Act σ ε β} {s t : σ}
    (h : m s = (.panic, t)) : (m >>= f) s = (.panic, t) := by
  rw [bind_run, h]

lemma bind_of_diverge {m : Act σ ε α} {f : α → Act σ ε β} {s t : σ}
    (h : m s = (.diverge, t)) : (m >>= f) s = (.diverge, t) := by
  rw [bind_run, h]

@[simp] lemma pure_bind_run (a : α) (f : α → Act σ ε β) (s : σ) :
    ((pure a : Act σ ε α) >>= f) s = f a s := rfl

@[simp] lemma get_bind_run (f : σ → Act σ ε β) (s : σ) :
    ((get : Act σ ε σ) >>= f) s = f s s := rfl

@[simp] lemma modify_bind_run (g : σ → σ) (f : Unit → Act σ ε β) (s : σ) :
    ((modify g : Act σ ε Unit) >>= f) s = f () (g s) := rfl

@[simp] lemma throw_bind_run (e : ε) (f : α → Act σ ε β) (s : σ) :
    ((throw e : Act σ ε α) >>= f) s = (.err e, s) := rfl

@[simp] lemma panic_bind_run (f : α → Act σ ε β) (s : σ) :
    ((panic : Act σ ε α) >>= f) s = (.panic, s) := rfl

lemma ext_run {m n : Act σ ε α} (h : ∀ s, m s = n s) : m = n := funext h

instance : LawfulMonad (Act σ ε) :=
  LawfulMonad.mk' (Act σ ε)
    (fun m => ext_run fun s => by
      change (match m s with
        | (.ok a, t) => (.ok a, t)
        | (.err e, t) => (.err e, t)
        | (.panic, t) => (.panic, t)
        | (.diverge, t) => (.diverge, t)) = m s
      rcases m s with ⟨_ | _ | _ | _, t⟩ <;> rfl)
    (fun _ _ => rfl)
    (fun m f g => ext_run fun s => by
      simp only [bind_run]
      rcases m s with ⟨_ | _ | _ | _, t⟩ <;> rfl)

/-- A run of `m >>= f` succeeds when `m` succeeds and `f` succeeds from there. -/
lemma bind_eq_ok {m : Act σ ε α} {f : α → Act σ ε β} {s u : σ} {b : β} :
    (m >>= f) s = (.ok b, u) ↔ ∃ a t, m s = (.ok a, t) ∧ f a t = (.ok b, u) := by
  rw [bind_run]
  rcases h : m s with ⟨_ | _ | _ | _, t⟩ <;> simp

/-- As `bind_eq_ok`, with the last state left out. -/
lemma bind_fst_eq_ok {m : Act σ ε α} {f : α → Act σ ε β} {s : σ} {b : β} :
    ((m >>= f) s).1 = .ok b ↔ ∃ a t, m s = (.ok a, t) ∧ (f a t).1 = .ok b := by
  rw [bind_run]
  rcases h : m s with ⟨_ | _ | _ | _, t⟩ <;> simp

lemma okOr_eq_ok {o : Option α} {e : ε} {s t : σ} {a : α} :
    (okOr o e : Act σ ε α) s = (.ok a, t) ↔ o = some a ∧ t = s := by
  cases o with
  | none => simp
  | some b => simp [eq_comm]

lemma atMost_eq_ok {limit : Option ℕ} {n : ℕ} {e : ℕ → ε} {s t : σ} {u : Unit} :
    (atMost limit n e : Act σ ε Unit) s = (.ok u, t) ↔ (∀ l, limit = some l → n ≤ l) ∧ t = s := by
  rcases atMost_cases limit n e with ⟨hle, h⟩ | ⟨l, hl, hlt, h⟩
  · rw [h, pure_run]
    simp only [Prod.mk.injEq, true_and]
    exact ⟨fun h => ⟨hle, h.symm⟩, fun h => h.2.symm⟩
  · rw [h, throw_run]
    simp only [Prod.mk.injEq, reduceCtorEq, false_and, false_iff, not_and]
    intro hle
    exact absurd (hle l hl) (Nat.not_le.mpr hlt)

lemma map_eq_ok {m : Act σ ε α} {f : α → β} {s t : σ} {b : β} :
    (f <$> m) s = (.ok b, t) ↔ ∃ a, m s = (.ok a, t) ∧ b = f a := by
  rw [map_eq_pure_bind, bind_eq_ok]
  constructor
  · rintro ⟨a, u, hm, hpure⟩
    simp only [pure_run, Prod.mk.injEq, Outcome.ok.injEq] at hpure
    obtain ⟨rfl, rfl⟩ := hpure
    exact ⟨a, hm, rfl⟩
  · rintro ⟨a, hm, rfl⟩
    exact ⟨a, t, hm, rfl⟩

/-- A run of `m >>= f` returns when `m` does and, if `m` succeeds, `f` does from there. -/
lemma bind_returned_iff {m : Act σ ε α} {f : α → Act σ ε β} {s : σ} :
    ((m >>= f) s).1.Returned ↔
      (m s).1.Returned ∧ ∀ a t, m s = (.ok a, t) → (f a t).1.Returned := by
  rw [bind_run]
  rcases h : m s with ⟨_ | _ | _ | _, t⟩ <;> simp

lemma map_returned_iff {m : Act σ ε α} {f : α → β} {s : σ} :
    ((f <$> m) s).1.Returned ↔ (m s).1.Returned := by
  rw [map_eq_pure_bind, bind_returned_iff]
  simp

lemma map_of_ok {m : Act σ ε α} {f : α → β} {s t : σ} {a : α} (h : m s = (.ok a, t)) :
    (f <$> m) s = (.ok (f a), t) := by
  rw [map_eq_pure_bind, bind_of_ok h]
  rfl

lemma onErr_of_ok {m : Act σ ε α} {h : ε → Act σ ε' α} {s t : σ} {a : α}
    (hm : m s = (.ok a, t)) : onErr m h s = (.ok a, t) := by
  rw [onErr, hm]

lemma onErr_of_err {m : Act σ ε α} {h : ε → Act σ ε' α} {s t : σ} {e : ε}
    (hm : m s = (.err e, t)) : onErr m h s = h e t := by
  rw [onErr, hm]

lemma iterate_succ_run (body : β → Act σ ε (β ⊕ α)) (n : ℕ) (b : β) (s : σ) :
    iterate body (n + 1) b s =
      match body b s with
      | (.ok (.inl b'), t) => iterate body n b' t
      | (.ok (.inr a), t) => (.ok a, t)
      | (.err e, t) => (.err e, t)
      | (.panic, t) => (.panic, t)
      | (.diverge, t) => (.diverge, t) := by
  change (body b >>= _) s = _
  rw [bind_run]
  rcases body b s with ⟨(_ | _) | _ | _ | _, t⟩ <;> rfl

/-! ## Properties that survive sequencing -/

/-- A property of actions that holds of the actions that leave the state alone and is kept
by sequencing.  Such a property holds of a method as soon as it holds of the steps that the
method is composed of. -/
structure Closed (P : (α : Type) → Act σ ε α → Prop) : Prop where
  pure : ∀ {α : Type} (a : α), P α (pure a)
  throw : ∀ {α : Type} (e : ε), P α (throw e)
  panic : ∀ {α : Type}, P α panic
  diverge : ∀ {α : Type}, P α diverge
  bind : ∀ {α β : Type} {m : Act σ ε α} {f : α → Act σ ε β},
    P α m → (∀ a, P β (f a)) → P β (m >>= f)

namespace Closed

variable {P : (α : Type) → Act σ ε α → Prop}

lemma map (h : Closed P) {m : Act σ ε α} (f : α → β) (hm : P α m) : P β (f <$> m) := by
  rw [map_eq_pure_bind]
  exact h.bind hm fun a => h.pure (f a)

lemma ite (_ : Closed P) {c : Prop} [Decidable c] {m n : Act σ ε α} (hm : P α m) (hn : P α n) :
    P α (if c then m else n) := by
  split
  · exact hm
  · exact hn

lemma okOr (h : Closed P) (o : Option α) (e : ε) : P α (okOr o e) := by
  cases o with
  | none => exact h.throw e
  | some a => exact h.pure a

lemma atMost (h : Closed P) (limit : Option ℕ) (n : ℕ) (e : ℕ → ε) :
    P Unit (atMost limit n e) := by
  rcases atMost_cases limit n e with ⟨_, heq⟩ | ⟨l, _, _, heq⟩
  · rw [heq]
    exact h.pure ()
  · rw [heq]
    exact h.throw (e l)

/-- The loop keeps what its body keeps. -/
lemma iterate (h : Closed P) {body : β → Act σ ε (β ⊕ α)} (hb : ∀ b, P _ (body b)) (n : ℕ)
    (b : β) : P α (iterate body n b) := by
  induction n generalizing b with
  | zero => exact h.diverge
  | succ n ih =>
      refine h.bind (hb b) fun x => ?_
      cases x with
      | inl b' => exact ih b'
      | inr a => exact h.pure a

end Closed

/-- Every run of `m` moves the state along `R`. -/
def Moves (R : σ → σ → Prop) (m : Act σ ε α) : Prop := ∀ s, R s (m s).2

/-- Actions move the state along a preorder when their steps do. -/
lemma closed_moves {R : σ → σ → Prop} (hr : ∀ s, R s s)
    (ht : ∀ s t u, R s t → R t u → R s u) :
    Closed (ε := ε) fun _ m => Moves R m where
  pure _ := fun s => hr s
  throw _ := fun s => hr s
  panic := fun s => hr s
  diverge := fun s => hr s
  bind := by
    intro α β m f hm hf s
    have h1 := hm s
    rw [bind_run]
    rcases h : m s with ⟨a | e | _ | _, t⟩ <;> rw [h] at h1
    · exact ht _ _ _ h1 (hf a t)
    · exact h1
    · exact h1
    · exact h1

lemma moves_onErr {R : σ → σ → Prop} (ht : ∀ s t u, R s t → R t u → R s u)
    {m : Act σ ε α} {h : ε → Act σ ε' α} (hm : Moves R m) (hh : ∀ e, Moves R (h e)) :
    Moves R (onErr m h) := by
  intro s
  have h1 := hm s
  rw [onErr]
  rcases hs : m s with ⟨a | e | _ | _, t⟩ <;> rw [hs] at h1
  · exact h1
  · exact ht _ _ _ h1 (hh e t)
  · exact h1
  · exact h1

/-- From related states `m` comes back alike and leaves related states. -/
def Respects (R : σ → σ → Prop) (m : Act σ ε α) : Prop :=
  ∀ s t, R s t → (m s).1 = (m t).1 ∧ R (m s).2 (m t).2

/-- Actions respect a relation when their steps do. -/
lemma closed_respects (R : σ → σ → Prop) : Closed (ε := ε) fun _ m => Respects R m where
  pure _ := fun _ _ h => ⟨rfl, h⟩
  throw _ := fun _ _ h => ⟨rfl, h⟩
  panic := fun _ _ h => ⟨rfl, h⟩
  diverge := fun _ _ h => ⟨rfl, h⟩
  bind := by
    intro α β m f hm hf s t h
    obtain ⟨h1, h2⟩ := hm s t h
    rw [bind_run, bind_run]
    rcases hs : m s with ⟨a | e | _ | _, s'⟩ <;> rcases ht : m t with ⟨a' | e' | _ | _, t'⟩ <;>
      rw [hs, ht] at h1 h2 <;> simp only [Outcome.ok.injEq, Outcome.err.injEq, reduceCtorEq] at h1
    · subst h1
      exact hf a s' t' h2
    · subst h1
      exact ⟨rfl, h2⟩
    · exact ⟨rfl, h2⟩
    · exact ⟨rfl, h2⟩

lemma respects_get_bind {R : σ → σ → Prop} {f : σ → Act σ ε α}
    (hf : ∀ s t, R s t → f s = f t) (h : ∀ s, Respects R (f s)) :
    Respects R (get >>= f) := by
  intro s t hst
  rw [get_bind_run, get_bind_run, ← hf s t hst]
  exact h s s t hst

lemma respects_modify {R : σ → σ → Prop} {f : σ → σ} (h : ∀ s t, R s t → R (f s) (f t)) :
    Respects R (modify f : Act σ ε Unit) := fun s t hst => ⟨rfl, h s t hst⟩

lemma respects_onErr {R : σ → σ → Prop} {m : Act σ ε α} {h : ε → Act σ ε' α}
    (hm : Respects R m) (hh : ∀ e, Respects R (h e)) : Respects R (onErr m h) := by
  intro s t hst
  obtain ⟨h1, h2⟩ := hm s t hst
  rw [onErr, onErr]
  rcases hs : m s with ⟨a | e | _ | _, s'⟩ <;> rcases ht : m t with ⟨a' | e' | _ | _, t'⟩ <;>
    rw [hs, ht] at h1 h2 <;> simp only [Outcome.ok.injEq, Outcome.err.injEq, reduceCtorEq] at h1
  · subst h1
    exact ⟨rfl, h2⟩
  · subst h1
    exact hh e s' t' h2
  · exact ⟨rfl, h2⟩
  · exact ⟨rfl, h2⟩

/-- What holds of the state after a failing `m` and after what follows a successful one
holds of the state after the two in sequence. -/
lemma bind_snd {m : Act σ ε α} {f : α → Act σ ε β} {s : σ} {Q : σ → Prop} (hm : Q (m s).2)
    (hf : ∀ a t, m s = (.ok a, t) → Q (f a t).2) : Q ((m >>= f) s).2 := by
  rw [bind_run]
  rcases h : m s with ⟨a | e | _ | _, t⟩ <;> rw [h] at hm
  · exact hf a t h
  · exact hm
  · exact hm
  · exact hm

lemma bind_pure_snd (m : Act σ ε α) (b : β) (s : σ) :
    ((m >>= fun _ => pure b) s).2 = (m s).2 := by
  rw [bind_run]
  rcases m s with ⟨_ | _ | _ | _, t⟩ <;> rfl

lemma map_snd (m : Act σ ε α) (f : α → β) (s : σ) : ((f <$> m) s).2 = (m s).2 := by
  rw [map_eq_pure_bind, bind_run]
  rcases m s with ⟨_ | _ | _ | _, t⟩ <;> rfl

/-! ## The rounds of a loop -/

/-- `Visits body b s c t`: the loop with body `body`, entered with the accumulator `b` in
the state `s`, starts a round with the accumulator `c` in the state `t`. -/
inductive Visits (body : β → Act σ ε (β ⊕ α)) : β → σ → β → σ → Prop
  | refl (b : β) (s : σ) : Visits body b s b s
  | step {b b' c : β} {s s' t : σ} (h : body b s = (.ok (.inl b'), s'))
      (hv : Visits body b' s' c t) : Visits body b s c t

section Rounds

variable {body : β → Act σ ε (β ⊕ α)}

/-- What every round preserves holds at the start of every round. -/
lemma Visits.induct {P : β → σ → Prop}
    (hstep : ∀ b s b' s', P b s → body b s = (.ok (.inl b'), s') → P b' s')
    {b c : β} {s t : σ} (hv : Visits body b s c t) (h : P b s) : P c t := by
  induction hv with
  | refl => exact h
  | step hb _ ih => exact ih (hstep _ _ _ _ h hb)

/-- The result of a loop that has enough rounds is the result of the round that broke it:
if the measure `μ` falls from round to round, then a loop with more than `μ` rounds left
ends in a round that does not ask for another one. -/
lemma iterate_ends (μ : β → σ → ℕ) {n : ℕ} {b : β} {s : σ}
    (hμ : ∀ c t c' t', Visits body b s c t → body c t = (.ok (.inl c'), t') → μ c' t' < μ c t)
    (hn : μ b s < n) :
    ∃ c t, Visits body b s c t ∧ (∀ c' t', body c t ≠ (.ok (.inl c'), t')) ∧
      iterate body n b s = iterate body 1 c t := by
  induction n generalizing b s with
  | zero => exact absurd hn (Nat.not_lt_zero _)
  | succ n ih =>
      by_cases h : ∃ b' s', body b s = (.ok (.inl b'), s')
      · obtain ⟨b', s', hb⟩ := h
        obtain ⟨c, t, hv, hstop, heq⟩ := ih
          (fun c t c' t' hv => hμ c t c' t' (.step hb hv))
          (by have := hμ b s b' s' (.refl b s) hb; omega)
        refine ⟨c, t, .step hb hv, hstop, ?_⟩
        rw [iterate_succ_run, hb, ← heq]
      · have hstop : ∀ b' s', body b s ≠ (.ok (.inl b'), s') := fun b' s' hb => h ⟨b', s', hb⟩
        refine ⟨b, s, .refl b s, hstop, ?_⟩
        rw [iterate_succ_run, iterate_succ_run]
        rcases hb : body b s with ⟨(b' | a) | e | _ | _, t⟩
        · exact absurd hb (hstop b' t)
        all_goals rfl

/-- A loop has at most one round that does not ask for another one. -/
lemma Visits.eq_of_stop {b c c' : β} {s t t' : σ} (hv : Visits body b s c t)
    (hstop : ∀ d u, body c t ≠ (.ok (.inl d), u)) (hv' : Visits body b s c' t')
    (hstop' : ∀ d u, body c' t' ≠ (.ok (.inl d), u)) : c = c' ∧ t = t' := by
  induction hv with
  | refl b s =>
      cases hv' with
      | refl => exact ⟨rfl, rfl⟩
      | step h _ => exact absurd h (hstop _ _)
  | step h _ ih =>
      cases hv' with
      | refl => exact absurd h (hstop' _ _)
      | step h' hv' =>
          rw [h] at h'
          simp only [Prod.mk.injEq, Outcome.ok.injEq, Sum.inl.injEq] at h'
          obtain ⟨rfl, rfl⟩ := h'
          exact ih hstop hv'

lemma Visits.trans {a b c : β} {s t u : σ} (h : Visits body a s b t) (h' : Visits body b t c u) :
    Visits body a s c u := by
  induction h with
  | refl => exact h'
  | step hb _ ih => exact .step hb (ih h')

/-- The rounds that a loop has behind it do not matter, if it has enough rounds left. -/
lemma iterate_eq_of_visits (μ : β → σ → ℕ) {m n : ℕ} {b c : β} {s t : σ}
    (hμ : ∀ c t c' t', Visits body b s c t → body c t = (.ok (.inl c'), t') → μ c' t' < μ c t)
    (hv : Visits body b s c t) (hn : μ b s < n) (hm : μ c t < m) :
    iterate body n b s = iterate body m c t := by
  obtain ⟨d, u, hvd, hstop, heq⟩ := iterate_ends μ hμ hn
  obtain ⟨d', u', hvd', hstop', heq'⟩ := iterate_ends μ
    (fun c' t' d u hv' => hμ c' t' d u (hv.trans hv')) hm
  obtain ⟨rfl, rfl⟩ := hvd.eq_of_stop hstop (hv.trans hvd') hstop'
  rw [heq, heq']

/-- A loop with enough rounds returns exactly when each of its rounds does. -/
lemma iterate_returned_iff (μ : β → σ → ℕ) {n : ℕ} {b : β} {s : σ}
    (hμ : ∀ c t c' t', Visits body b s c t → body c t = (.ok (.inl c'), t') → μ c' t' < μ c t)
    (hn : μ b s < n) :
    (iterate body n b s).1.Returned ↔ ∀ c t, Visits body b s c t → (body c t).1.Returned := by
  obtain ⟨c, t, hv, hstop, heq⟩ := iterate_ends μ hμ hn
  have hlast : (iterate body n b s).1.Returned ↔ (body c t).1.Returned := by
    rw [heq, iterate_succ_run]
    rcases h : body c t with ⟨(c' | a) | e | _ | _, t'⟩
    · exact absurd h (hstop c' t')
    all_goals simp
  rw [hlast]
  constructor
  · intro hr c' t' hv'
    by_cases hgo : ∃ d u, body c' t' = (.ok (.inl d), u)
    · obtain ⟨d, u, h⟩ := hgo
      rw [h]
      exact Outcome.returned_ok _
    · obtain ⟨rfl, rfl⟩ := hv.eq_of_stop hstop hv' fun d u h => hgo ⟨d, u, h⟩
      exact hr
  · exact fun h => h c t hv

end Rounds

end Act

end Lib
