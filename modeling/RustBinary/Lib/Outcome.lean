import Mathlib.Tactic.Common

/-!
# Outcomes of a call

Besides success and failure a call has two further outcomes.  `Outcome.panic` stands for an
abort (an `unreachable!`, an index out of range, an overflowing operation) and
`Outcome.diverge` for a loop that has used up the rounds it was given.  Neither is ever the
value of a call that returns.

A function that has no state of its own is read as its outcome; sequencing stops at the
first outcome that is not a success.
-/

namespace Lib

/-- What a call comes back with. -/
inductive Outcome (ε α : Type) where
  | ok (a : α)
  | err (e : ε)
  | panic
  | diverge
deriving DecidableEq, Repr

namespace Outcome

variable {ε ε' α β : Type}

/-- The call has come back to its caller, with a value or with an error. -/
def Returned : Outcome ε α → Prop
  | ok _ => True
  | err _ => True
  | panic => False
  | diverge => False

instance (o : Outcome ε α) : Decidable o.Returned := by
  cases o <;> unfold Returned <;> infer_instance

@[simp] lemma returned_ok (a : α) : (ok a : Outcome ε α).Returned := trivial

@[simp] lemma returned_err (e : ε) : (err e : Outcome ε α).Returned := trivial

@[simp] lemma not_returned_panic : ¬ (panic : Outcome ε α).Returned := id

@[simp] lemma not_returned_diverge : ¬ (diverge : Outcome ε α).Returned := id

/-- The value of a successful call. -/
def ok? : Outcome ε α → Option α
  | ok a => some a
  | _ => none

instance : Monad (Outcome ε) where
  pure := ok
  bind m f :=
    match m with
    | ok a => f a
    | err e => err e
    | panic => panic
    | diverge => diverge

/-- The value of `o`, or the error `e` when there is none. -/
def okOr (o : Option α) (e : ε) : Outcome ε α :=
  match o with
  | some a => ok a
  | none => err e

/-- The value of `o`, which is there unless the code has slipped. -/
def orPanic (o : Option α) : Outcome ε α :=
  match o with
  | some a => ok a
  | none => panic

/-- Go on only if `c` holds. -/
def require (c : Prop) [Decidable c] (e : ε) : Outcome ε Unit := if c then ok () else err e

/-- The errors of a call, as errors of its caller. -/
def mapErr (f : ε → ε') : Outcome ε α → Outcome ε' α
  | ok a => ok a
  | err e => err (f e)
  | panic => panic
  | diverge => diverge

@[simp] lemma pure_eq_ok (a : α) : (pure a : Outcome ε α) = ok a := rfl

@[simp] lemma ok_bind (a : α) (f : α → Outcome ε β) : ok a >>= f = f a := rfl

@[simp] lemma err_bind (e : ε) (f : α → Outcome ε β) : err e >>= f = err e := rfl

@[simp] lemma panic_bind (f : α → Outcome ε β) : panic >>= f = panic := rfl

@[simp] lemma diverge_bind (f : α → Outcome ε β) : diverge >>= f = diverge := rfl

@[simp] lemma okOr_some (a : α) (e : ε) : okOr (some a) e = ok a := rfl

@[simp] lemma okOr_none (e : ε) : okOr (none : Option α) e = err e := rfl

@[simp] lemma orPanic_some (a : α) : (orPanic (some a) : Outcome ε α) = ok a := rfl

/-- A sequence succeeds when its parts do. -/
lemma bind_eq_ok {m : Outcome ε α} {f : α → Outcome ε β} {b : β} :
    m >>= f = ok b ↔ ∃ a, m = ok a ∧ f a = ok b := by
  cases m <;> simp

/-- What holds of the values of a sequence, by the values of its first part. -/
lemma forall_bind_eq_ok {m : Outcome ε α} {f : α → Outcome ε β} {p : β → Prop}
    (h : ∀ a, m = ok a → ∀ b, f a = ok b → p b) : ∀ b, m >>= f = ok b → p b := by
  intro b hb
  obtain ⟨a, ha, hb⟩ := bind_eq_ok.mp hb
  exact h a ha b hb

/-- A sequence returns when its parts do. -/
lemma bind_returned {m : Outcome ε α} {f : α → Outcome ε β} (hm : m.Returned)
    (hf : ∀ a, (f a).Returned) : (m >>= f).Returned := by
  cases m with
  | ok a => exact hf a
  | err e => trivial
  | panic => exact hm
  | diverge => exact hm

lemma bind_returned_of {m : Outcome ε α} {f : α → Outcome ε β} (hm : m.Returned)
    (hf : ∀ a, m = ok a → (f a).Returned) : (m >>= f).Returned := by
  cases m with
  | ok a => exact hf a rfl
  | err e => trivial
  | panic => exact hm
  | diverge => exact hm

lemma okOr_returned (o : Option α) (e : ε) : (okOr o e).Returned := by
  cases o <;> trivial

lemma require_returned (c : Prop) [Decidable c] (e : ε) : (require c e).Returned := by
  rw [require]
  split <;> trivial

/-- A check returns early when it fails. -/
lemma require_bind_returned {c : Prop} [Decidable c] {e : ε} {f : Unit → Outcome ε β} :
    (require c e >>= f).Returned ↔ (c → (f ()).Returned) := by
  rw [require]
  split
  · next h => simp [h]
  · next h => simp [h]

lemma okOr_bind_returned {o : Option α} {e : ε} {f : α → Outcome ε β} :
    (okOr o e >>= f).Returned ↔ ∀ a, o = some a → (f a).Returned := by
  cases o <;> simp

lemma bind_ok_returned {m : Outcome ε α} {g : α → β} :
    (m >>= fun a => ok (g a)).Returned ↔ m.Returned := by
  cases m <;> simp

/-- A call that returns without an error has a value. -/
lemma Returned.eq_ok {o : Outcome ε α} (h : o.Returned) (herr : ∀ e, o ≠ err e) :
    ∃ a, o = ok a := by
  cases o with
  | ok a => exact ⟨a, rfl⟩
  | err e => exact absurd rfl (herr e)
  | panic => exact h.elim
  | diverge => exact h.elim

lemma okOr_eq_ok {o : Option α} {e : ε} {a : α} : okOr o e = ok a ↔ o = some a := by
  cases o <;> simp [okOr]

lemma orPanic_eq_ok {o : Option α} {a : α} : (orPanic o : Outcome ε α) = ok a ↔ o = some a := by
  cases o <;> simp [orPanic]

lemma mapErr_eq_ok {f : ε → ε'} {o : Outcome ε α} {a : α} : o.mapErr f = ok a ↔ o = ok a := by
  cases o <;> simp [mapErr]

lemma require_of {c : Prop} [Decidable c] {e : ε} (h : c) : require c e = ok () := if_pos h

lemma require_eq_ok {c : Prop} [Decidable c] {e : ε} {u : Unit} : require c e = ok u ↔ c := by
  rw [require]
  split
  · next h => simp [h]
  · next h => simp [h]

/-! ## Lists -/

/-- `f` on every element, in order. -/
def mapAll (f : α → Outcome ε β) : List α → Outcome ε (List β)
  | [] => ok []
  | a :: as => do
      let b ← f a
      let bs ← mapAll f as
      pure (b :: bs)

lemma mapAll_of {f : α → Outcome ε β} {g : α → β} {as : List α} (h : ∀ a ∈ as, f a = ok (g a)) :
    mapAll f as = ok (as.map g) := by
  induction as with
  | nil => rfl
  | cons a as ih =>
      rw [mapAll, h a List.mem_cons_self, ok_bind, ih fun b hb => h b (List.mem_cons_of_mem a hb)]
      rfl

lemma mapAll_eq_ok {f : α → Outcome ε β} {as : List α} {bs : List β} :
    mapAll f as = ok bs ↔ List.Forall₂ (fun a b => f a = ok b) as bs := by
  induction as generalizing bs with
  | nil =>
      constructor
      · rintro ⟨⟩
        exact .nil
      · rintro ⟨⟩
        rfl
  | cons a as ih =>
      rw [mapAll, bind_eq_ok]
      constructor
      · rintro ⟨b, hb, h⟩
        obtain ⟨rest, hrest, h⟩ := bind_eq_ok.mp h
        cases h
        exact .cons hb (ih.mp hrest)
      · rintro (_ | ⟨hb, hrest⟩)
        exact ⟨_, hb, bind_eq_ok.mpr ⟨_, ih.mpr hrest, rfl⟩⟩

lemma mapAll_ne_err {f : α → Outcome ε β} (herr : ∀ a e, f a ≠ err e) (as : List α) (e : ε) :
    mapAll f as ≠ err e := by
  induction as with
  | nil => simp [mapAll]
  | cons a as ih =>
      rw [mapAll]
      rcases hb : f a with b | e' | _ | _
      · rw [ok_bind]
        rcases hbs : mapAll f as with bs | e' | _ | _
        · simp
        · intro h
          exact ih (hbs.trans h)
        · simp
        · simp
      · exact absurd hb (herr a e')
      · simp
      · simp

/-- Where `f` does not fail, it comes back for every element or for none of the list. -/
lemma mapAll_returned_iff {f : α → Outcome ε β} (herr : ∀ a e, f a ≠ err e) {as : List α} :
    (mapAll f as).Returned ↔ ∀ a ∈ as, (f a).Returned := by
  induction as with
  | nil => simp [mapAll]
  | cons a as ih =>
      rw [List.forall_mem_cons, ← ih, mapAll]
      rcases hb : f a with b | e | _ | _
      · rw [ok_bind]
        cases mapAll f as <;> simp
      · exact absurd hb (herr a e)
      · simp
      · simp

end Outcome

end Lib
