import RustBinary.Lib.Act
import RustBinary.Lib.Bytes

/-!
# What a reader reads

A state that reads an input has a position: `Tape.Here s bs` says that `bs` lies at the position
of `s` and may be read, and `Tape.advance s n` is the state after reading `n` elements.

`Spells G m L` is the whole meaning of a reader `m` that does nothing but read: in the states
that satisfy `G` it comes back with `a` exactly when a spelling of `a` lies at the position, and
it has then moved over it.  The rules below give the spellings of an action from those of its
parts.
-/

namespace Lib

open Act

/-- The positions of a state in an input. -/
class Tape (σ : Type) (β : outParam Type) where
  Here : σ → List β → Prop
  advance : σ → ℕ → σ
  advance_zero : ∀ s, advance s 0 = s
  advance_advance : ∀ s m n, advance (advance s m) n = advance s (m + n)
  here_append : ∀ s xs ys, Here s (xs ++ ys) ↔ Here s xs ∧ Here (advance s xs.length) ys

namespace Tape

variable {σ β : Type} [Tape σ β] {s : σ} {xs ys : List β}

lemma Here.nil (h : Here s xs) : Here s ([] : List β) := ((here_append s [] xs).mp h).1

lemma Here.after (h : Here s xs) : Here (advance s xs.length) ([] : List β) := by
  have := here_append s xs []
  rw [List.append_nil] at this
  exact (this.mp h).2

end Tape

open Tape

variable {σ ε α γ β : Type} [Tape σ β]

/-- The spellings `L a` are what `m` reads when it comes back with `a`. -/
def Spells (G : σ → Prop) (m : Act σ ε α) (L : α → List β → Prop) : Prop :=
  ∀ s, G s → Here s ([] : List β) → ∀ a t,
    m s = (.ok a, t) ↔ ∃ bs, L a bs ∧ Here s bs ∧ t = advance s bs.length

/-- Reading leaves `G` alone. -/
def Steady (G : σ → Prop) : Prop := ∀ s n, G s → G (advance s n)

namespace Spells

variable {G : σ → Prop} {m : Act σ ε α} {L : α → List β → Prop}

lemma pure (a : α) : Spells G (pure a : Act σ ε α) fun b (bs : List β) => b = a ∧ bs = [] := by
  intro s _ hs b t
  constructor
  · rintro ⟨rfl, rfl⟩
    exact ⟨[], ⟨rfl, rfl⟩, hs, (advance_zero s).symm⟩
  · rintro ⟨bs, ⟨rfl, rfl⟩, -, rfl⟩
    rw [List.length_nil, advance_zero]
    rfl

/-- A call that has nothing to do with the state reads nothing. -/
lemma call (o : Outcome ε α) :
    Spells G (call o : Act σ ε α) fun a (bs : List β) => o = .ok a ∧ bs = [] := by
  intro s _ hs a t
  rw [call_run, Prod.mk.injEq]
  constructor
  · rintro ⟨rfl, rfl⟩
    exact ⟨[], ⟨rfl, rfl⟩, hs, (advance_zero s).symm⟩
  · rintro ⟨bs, ⟨ho, rfl⟩, -, rfl⟩
    exact ⟨ho, (advance_zero s).symm⟩

lemma atMost (limit : Option ℕ) (n : ℕ) (e : ℕ → ε) :
    Spells G (atMost limit n e : Act σ ε Unit) fun _ (bs : List β) =>
      (∀ l, limit = some l → n ≤ l) ∧ bs = [] := by
  intro s _ hs a t
  rw [atMost_eq_ok]
  constructor
  · rintro ⟨hle, rfl⟩
    exact ⟨[], ⟨hle, rfl⟩, hs, (advance_zero t).symm⟩
  · rintro ⟨bs, ⟨hle, rfl⟩, -, rfl⟩
    exact ⟨hle, advance_zero s⟩

/-- An action that does not succeed spells nothing. -/
lemma never (h : ∀ s, G s → ∀ a t, m s ≠ (.ok a, t)) : Spells G m fun _ (_ : List β) => False := by
  intro s hG _ a t
  constructor
  · intro hm
    exact absurd hm (h s hG a t)
  · rintro ⟨bs, h, -⟩
    exact h.elim

lemma congr {L' : α → List β → Prop} (h : Spells G m L) (hL : ∀ a bs, L a bs ↔ L' a bs) :
    Spells G m L' := by
  intro s hG hs a t
  simp only [h s hG hs a t, hL]

lemma mono {G' : σ → Prop} (h : Spells G m L) (hG : ∀ s, G' s → G s) : Spells G' m L :=
  fun s hs => h s (hG s hs)

lemma okOr (o : Option α) (e : ε) :
    Spells G (Act.okOr o e : Act σ ε α) fun a (bs : List β) => o = some a ∧ bs = [] := by
  cases o with
  | none => exact (never fun s _ a t => by simp).congr fun a bs => by simp
  | some b => exact (pure b).congr fun a bs => by simp [eq_comm]

lemma require (c : Prop) [Decidable c] (e : ε) :
    Spells G (Act.call (Outcome.require c e) : Act σ ε Unit) fun _ (bs : List β) => c ∧ bs = [] := by
  refine Spells.congr (Spells.call (Outcome.require c e)) fun _ bs => ?_
  rw [Outcome.require_eq_ok]

/-- One reader after another reads one spelling after the other. -/
lemma bind (hG : Steady G) {f : α → Act σ ε γ} {M : α → γ → List β → Prop} (hm : Spells G m L)
    (hf : ∀ a, Spells G (f a) (M a)) :
    Spells G (m >>= f) fun c bs => ∃ a xs ys, L a xs ∧ M a c ys ∧ bs = xs ++ ys := by
  intro s hs hhere c u
  rw [bind_eq_ok]
  constructor
  · rintro ⟨a, t, hfirst, hsecond⟩
    obtain ⟨xs, hL, hxs, rfl⟩ := (hm s hs hhere a t).mp hfirst
    obtain ⟨ys, hM, hys, rfl⟩ := (hf a _ (hG s _ hs) hxs.after c u).mp hsecond
    refine ⟨xs ++ ys, ⟨a, xs, ys, hL, hM, rfl⟩, (here_append s xs ys).mpr ⟨hxs, hys⟩, ?_⟩
    rw [advance_advance, List.length_append]
  · rintro ⟨_, ⟨a, xs, ys, hL, hM, rfl⟩, hbs, rfl⟩
    obtain ⟨hxs, hys⟩ := (here_append s xs ys).mp hbs
    refine ⟨a, _, (hm s hs hhere a _).mpr ⟨xs, hL, hxs, rfl⟩, ?_⟩
    refine (hf a _ (hG s _ hs) hxs.after c _).mpr ⟨ys, hM, hys, ?_⟩
    rw [advance_advance, List.length_append]

lemma map (f : α → γ) (hm : Spells G m L) :
    Spells G (f <$> m) fun c bs => ∃ a, L a bs ∧ c = f a := by
  intro s hs hhere c u
  rw [map_eq_pure_bind, bind_eq_ok]
  constructor
  · rintro ⟨a, t, hfirst, hpure⟩
    obtain ⟨bs, hL, hbs, rfl⟩ := (hm s hs hhere a t).mp hfirst
    obtain ⟨rfl, rfl⟩ := hpure
    exact ⟨bs, ⟨a, hL, rfl⟩, hbs, rfl⟩
  · rintro ⟨bs, ⟨a, hL, rfl⟩, hbs, rfl⟩
    exact ⟨a, _, (hm s hs hhere a _).mpr ⟨bs, hL, hbs, rfl⟩, rfl⟩

lemma ite {c : Prop} [Decidable c] {n : Act σ ε α} {M : α → List β → Prop} (hm : Spells G m L)
    (hn : Spells G n M) :
    Spells G (if c then m else n) fun a bs => if c then L a bs else M a bs := by
  split
  · exact hm
  · exact hn

/-- An action that looks at the state, but not at what reading changes of it. -/
lemma get_bind {f : σ → Act σ ε α} (hf : ∀ s, G s → f s = m) (hm : Spells G m L) :
    Spells G (get >>= f) L := by
  intro s hs hhere a t
  rw [get_bind_run, hf s hs]
  exact hm s hs hhere a t

end Spells

/-- `m` reads the spelling `bs` as `a`. -/
def Reads (m : Act σ ε α) (a : α) (bs : List β) : Prop :=
  ∀ s, Here s bs → m s = (.ok a, advance s bs.length)

namespace Reads

lemma pure (a : α) : Reads (pure a : Act σ ε α) a ([] : List β) := by
  intro s _
  rw [List.length_nil, advance_zero]
  rfl

lemma of_spells {G : σ → Prop} {m : Act σ ε α} {L : α → List β → Prop} {a : α} {bs : List β}
    (h : Spells G m L) (hG : ∀ s, G s) (hL : L a bs) : Reads m a bs := by
  intro s hhere
  exact (h s (hG s) hhere.nil a _).mpr ⟨bs, hL, hhere, rfl⟩

/-- One reader after another reads one spelling after the other. -/
lemma bind {m : Act σ ε α} {f : α → Act σ ε γ} {a : α} {c : γ} {xs ys : List β}
    (hm : Reads m a xs) (hf : Reads (f a) c ys) : Reads (m >>= f) c (xs ++ ys) := by
  intro s h
  obtain ⟨hxs, hys⟩ := (here_append s xs ys).mp h
  rw [bind_of_ok (hm s hxs), hf _ hys, advance_advance, List.length_append]

/-- A check that succeeds reads nothing. -/
lemma require_bind {c : Prop} [Decidable c] (hc : c) (e : ε) {f : Unit → Act σ ε γ} {a : γ}
    {xs : List β} (hf : Reads (f ()) a xs) :
    Reads (call (Outcome.require c e) >>= f) a xs := by
  intro s h
  rw [bind_run, call_run, Outcome.require_of hc]
  exact hf s h

/-- As `bind`, when nothing is read behind the first reader. -/
lemma bind_pure {m : Act σ ε α} {f : α → γ} {a : α} {xs : List β} (hm : Reads m a xs) :
    Reads (m >>= fun b => Pure.pure (f b)) (f a) xs := by
  have hpure : Reads (Pure.pure (f a) : Act σ ε γ) (f a) ([] : List β) := Reads.pure (f a)
  have h := Reads.bind (f := fun b => Pure.pure (f b)) hm hpure
  rwa [List.append_nil] at h

end Reads

/-! ## Windows -/

/-- The text `bs` is in `input` at the position `p`, and it ends within `limit`. -/
def Window (input : List β) (limit : Option ℕ) (p : ℕ) (bs : List β) : Prop :=
  slice input p (p + bs.length) = some bs ∧ ∀ l, limit = some l → p + bs.length ≤ l

lemma window_append {input xs ys : List β} {limit : Option ℕ} {p : ℕ} :
    Window input limit p (xs ++ ys) ↔
      Window input limit p xs ∧ Window input limit (p + xs.length) ys := by
  simp only [Window, slice_eq_some, List.length_append]
  have htake : ∀ n k : ℕ, (input.drop p).take (n + k)
      = (input.drop p).take n ++ (input.drop (p + n)).take k := by
    intro n k
    rw [List.take_add, List.drop_drop]
  constructor
  · rintro ⟨⟨-, hlen, htext⟩, hlimit⟩
    rw [show p + (xs.length + ys.length) - p = xs.length + ys.length by omega, htake] at htext
    obtain ⟨hxs, hys⟩ := List.append_inj htext (by
      rw [List.length_take, List.length_drop]
      omega)
    refine ⟨⟨⟨by omega, by omega, ?_⟩, fun l hl => ?_⟩, ⟨by omega, by omega, ?_⟩, fun l hl => ?_⟩
    · rw [show p + xs.length - p = xs.length by omega]
      exact hxs
    · have := hlimit l hl
      omega
    · rw [show p + xs.length + ys.length - (p + xs.length) = ys.length by omega]
      exact hys
    · have := hlimit l hl
      omega
  · rintro ⟨⟨⟨-, -, hxs⟩, -⟩, ⟨-, hlen, hys⟩, hlimit⟩
    rw [show p + xs.length - p = xs.length by omega] at hxs
    rw [show p + xs.length + ys.length - (p + xs.length) = ys.length by omega] at hys
    refine ⟨⟨by omega, by omega, ?_⟩, fun l hl => ?_⟩
    · rw [show p + (xs.length + ys.length) - p = xs.length + ys.length by omega, htake, hxs, hys]
    · have := hlimit l hl
      omega

end Lib
