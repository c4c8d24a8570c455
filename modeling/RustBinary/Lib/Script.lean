import RustBinary.Lib.Act
import Mathlib.Order.Lattice
import Mathlib.Order.Nat

/-!
# What a writer asks of its sink

A writer that never looks at its sink is a script: the texts that it writes one behind the other,
some of them inside containers.  A container is entered, and left again whatever becomes of what is
written in it.  `Script.run` plays a script on a sink, and `height` is how deep the containers go.
-/

namespace Lib

variable {σ ε α β : Type}

/-- `m`, and then `last`, even if `m` has failed. -/
def Act.leaving (m : Act σ ε α) (last : Act σ ε Unit) : Act σ ε α := fun s =>
  match m s with
  | (.ok a, t) => (last >>= fun _ => pure a) t
  | (.err e, t) => (last >>= fun _ => Act.throw e) t
  | (.panic, t) => (.panic, t)
  | (.diverge, t) => (.diverge, t)

lemma Act.leaving_of_ok {m : Act σ ε α} {last : Act σ ε Unit} {s t : σ} {a : α}
    (h : m s = (.ok a, t)) : m.leaving last s = (last >>= fun _ => pure a) t := by
  rw [leaving, h]

lemma Act.leaving_of_err {m : Act σ ε α} {last : Act σ ε Unit} {s t : σ} {e : ε}
    (h : m s = (.err e, t)) : m.leaving last s = (last >>= fun _ => throw e) t := by
  rw [leaving, h]

lemma Act.leaving_of_panic {m : Act σ ε α} {last : Act σ ε Unit} {s t : σ}
    (h : m s = (.panic, t)) : m.leaving last s = (.panic, t) := by
  rw [leaving, h]

lemma Act.leaving_eq_ok {m : Act σ ε α} {last : Act σ ε Unit} {s u : σ} {a : α} :
    m.leaving last s = (.ok a, u) ↔ ∃ v t, m s = (.ok a, t) ∧ last t = (.ok v, u) := by
  constructor
  · intro h
    rcases hm : m s with ⟨b | e | _ | _, t⟩
    · rw [leaving_of_ok hm] at h
      obtain ⟨v, _, hlast, hpure⟩ := bind_eq_ok.mp h
      cases hpure
      exact ⟨v, t, rfl, hlast⟩
    · rw [leaving_of_err hm] at h
      obtain ⟨v, _, _, hthrow⟩ := bind_eq_ok.mp h
      cases hthrow
    · rw [leaving_of_panic hm] at h
      cases h
    · rw [leaving, hm] at h
      cases h
  · rintro ⟨v, t, hm, hlast⟩
    rw [leaving_of_ok hm, bind_of_ok hlast]
    rfl

/-- The two come back when each of them does. -/
lemma Act.leaving_returned_iff {m : Act σ ε α} {last : Act σ ε Unit} {s : σ} :
    (m.leaving last s).1.Returned ↔ (m s).1.Returned ∧ (last (m s).2).1.Returned := by
  rcases h : m s with ⟨a | e | _ | _, t⟩
  · rw [leaving_of_ok h, bind_returned_iff]
    simp
  · rw [leaving_of_err h, bind_returned_iff]
    simp
  · rw [leaving_of_panic h]
    simp
  · rw [leaving, h]
    simp

@[simp] lemma Act.leaving_pure (m : Act σ ε α) : m.leaving (pure ()) = m := by
  funext s
  rw [leaving]
  rcases m s with ⟨a | e | _ | _, t⟩ <;> rfl

/-- Texts to write, some of them in containers. -/
inductive Script (β : Type) where
  | done
  | write (text : List β) (rest : Script β)
  | container (body rest : Script β)

namespace Script

def append : Script β → Script β → Script β
  | done, other => other
  | write text rest, other => write text (rest.append other)
  | container body rest, other => container body (rest.append other)

instance : Append (Script β) := ⟨append⟩

@[simp] lemma done_append (b : Script β) : done ++ b = b := rfl

@[simp] lemma write_append (text : List β) (a b : Script β) :
    write text a ++ b = write text (a ++ b) := rfl

@[simp] lemma container_append (body a b : Script β) :
    container body a ++ b = container body (a ++ b) := rfl

/-- A single text. -/
def text (bs : List β) : Script β := write bs done

/-- Texts without a container. -/
def texts : List (List β) → Script β
  | [] => done
  | bs :: rest => write bs (texts rest)

/-- The scripts of a list, one behind the other. -/
def all (f : α → Script β) : List α → Script β
  | [] => done
  | a :: as => f a ++ all f as

/-- What a script writes. -/
def bytes : Script β → List β
  | done => []
  | write text rest => text ++ rest.bytes
  | container body rest => body.bytes ++ rest.bytes

/-- How deep the containers of a script go. -/
def height : Script β → ℕ
  | done => 0
  | write _ rest => rest.height
  | container body rest => max (body.height + 1) rest.height

/-- The texts of a script, without the containers. -/
def flat : Script β → List (List β)
  | done => []
  | write text rest => text :: rest.flat
  | container body rest => body.flat ++ rest.flat

@[simp] lemma bytes_append (a b : Script β) : (a ++ b).bytes = a.bytes ++ b.bytes := by
  induction a with
  | done => rfl
  | write text rest ih => simp [bytes, ih]
  | container body rest _ ih => simp [bytes, ih]

@[simp] lemma height_append (a b : Script β) : (a ++ b).height = max a.height b.height := by
  induction a with
  | done => simp [height]
  | write text rest ih => simp [height, ih]
  | container body rest _ ih => simp [height, ih, max_assoc]

@[simp] lemma bytes_text (bs : List β) : (text bs).bytes = bs := List.append_nil bs

@[simp] lemma height_text (bs : List β) : (text bs).height = 0 := rfl

@[simp] lemma bytes_texts (ts : List (List β)) : (texts ts).bytes = ts.flatten := by
  induction ts with
  | nil => rfl
  | cons bs rest ih => simp [texts, bytes, ih]

@[simp] lemma height_texts (ts : List (List β)) : (texts ts).height = 0 := by
  induction ts with
  | nil => rfl
  | cons bs rest ih => simpa [texts, height] using ih

lemma bytes_all (f : α → Script β) (as : List α) :
    (all f as).bytes = as.flatMap fun a => (f a).bytes := by
  induction as with
  | nil => rfl
  | cons a as ih => simp [all, ih]

lemma height_all (f : α → Script β) (as : List α) :
    (all f as).height = (as.map fun a => (f a).height).foldr max 0 := by
  induction as with
  | nil => rfl
  | cons a as ih => simp [all, ih]

@[simp] lemma flat_append (a b : Script β) : (a ++ b).flat = a.flat ++ b.flat := by
  induction a with
  | done => rfl
  | write text rest ih => simp [flat, ih]
  | container body rest _ ih => simp [flat, ih]

lemma flatten_flat (s : Script β) : s.flat.flatten = s.bytes := by
  induction s with
  | done => rfl
  | write text rest ih => simp [flat, bytes, ih]
  | container body rest ihbody ih => simp [flat, bytes, ihbody, ih]

section Run

variable (put : List β → Act σ ε Unit) (enter exit : Act σ ε Unit)

/-- A script on a sink. -/
def run : Script β → Act σ ε Unit
  | done => pure ()
  | write text rest => do
      put text
      run rest
  | container body rest => do
      enter
      (run body).leaving exit
      run rest

lemma run_append (a b : Script β) :
    run put enter exit (a ++ b) = (do run put enter exit a; run put enter exit b) := by
  induction a with
  | done => rfl
  | write text rest ih => rw [write_append, run, run, ih, bind_assoc]
  | container body rest _ ih => rw [container_append, run, run, ih, bind_assoc, bind_assoc]

lemma run_text (bs : List β) : run put enter exit (text bs) = put bs := bind_pure (put bs)

lemma run_container (body : Script β) :
    run put enter exit (container body done) =
      (do enter; (run put enter exit body).leaving exit) := by
  rw [run, run]
  simp

end Run

end Script

end Lib
