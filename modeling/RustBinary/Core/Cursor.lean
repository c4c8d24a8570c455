import RustBinary.Core.Slice
import RustBinary.Lib.Spells

/-!
# Cursors over an input

The framed profiles read their input through a `Cursor` of their own, all of them alike: `take`
hands out the next bytes, the words are little-endian, and `finish` looks at what is left.
-/

namespace RustBinary

open Lib Lib.Act

structure Cursor where
  input : Slice 1 UInt8
  position : ℕ

namespace Cursor

def new (input : Slice 1 UInt8) : Cursor := ⟨input, 0⟩

def remaining (cursor : Cursor) : ℕ := cursor.input.elems.length - cursor.position

def take (length : ℕ) : Act Cursor Error (List UInt8) := do
  let cursor ← get
  let stop ← okOr (checkedAdd cursor.position length) .unexpectedEnd
  let bytes ← okOr (slice cursor.input.elems cursor.position stop) .unexpectedEnd
  modify fun cursor => { cursor with position := stop }
  pure bytes

/-- `u16`, `u32` and `u64`, by their width. -/
def number (width : ℕ) : Act Cursor Error ℕ := leNat <$> take width

def finish (trailing : TrailingBytes) : Act Cursor Error Unit := do
  let cursor ← get
  if trailing = .reject ∧ cursor.position ≠ cursor.input.elems.length then
    throw (.trailingBytes (cursor.input.elems.length - cursor.position))
  else
    pure ()

instance : Tape Cursor UInt8 where
  Here s bs := Window s.input.elems none s.position bs
  advance s n := { s with position := s.position + n }
  advance_zero _ := rfl
  advance_advance _ _ _ := by simp only [Nat.add_assoc]
  here_append _ _ _ := window_append

/-- Every cursor. -/
def Always (_ : Cursor) : Prop := True

lemma steady_always : Steady Always := fun _ _ _ => trivial

lemma spells_take (len : ℕ) :
    Spells Always (take len) fun bytes bs => bytes = bs ∧ bs.length = len := by
  intro s _ _ bytes t
  rw [take]
  simp only [bind_eq_ok, get_run, Prod.mk.injEq, Outcome.ok.injEq, okOr_eq_ok, modify_run, pure_run]
  constructor
  · rintro ⟨_, _, ⟨rfl, rfl⟩, stop, _, ⟨hstop, rfl⟩, read, _, ⟨hslice, rfl⟩, _, _, ⟨-, rfl⟩,
      rfl, rfl⟩
    rw [checkedAdd, Option.ite_none_right_eq_some, Option.some.injEq] at hstop
    obtain ⟨-, rfl⟩ := hstop
    have hlen : read.length = len := by
      rw [slice_length hslice]
      omega
    subst hlen
    exact ⟨read, ⟨rfl, rfl⟩, ⟨hslice, fun _ h => by cases h⟩, rfl⟩
  · rintro ⟨bs, ⟨rfl, rfl⟩, ⟨hslice, -⟩, rfl⟩
    have hmax : s.position + bytes.length ≤ u64Max := by
      have h := (slice_eq_some.mp hslice).2.1
      have hinput := s.input.length_le
      rw [isizeMax] at hinput
      rw [u64Max]
      omega
    exact ⟨_, _, ⟨rfl, rfl⟩, _, _, ⟨if_pos hmax, rfl⟩, _, _, ⟨hslice, rfl⟩, (), _,
      ⟨trivial, rfl⟩, rfl, rfl⟩

lemma spells_number (width : ℕ) :
    Spells Always (number width) fun n bs => n < 256 ^ width ∧ bs = leBytes width n := by
  refine ((spells_take width).map leNat).congr fun n bs => ?_
  constructor
  · rintro ⟨bytes, ⟨rfl, rfl⟩, rfl⟩
    exact ⟨leNat_lt bytes, (leBytes_leNat bytes).symm⟩
  · rintro ⟨hn, rfl⟩
    exact ⟨_, ⟨rfl, length_leBytes width n⟩, (leNat_leBytes hn).symm⟩

lemma finish_eq_ok {trailing : TrailingBytes} {s t : Cursor} {u : Unit} :
    finish trailing s = (.ok u, t) ↔
      (trailing = .reject → s.position = s.input.elems.length) ∧ t = s := by
  rw [finish, get_bind_run]
  split
  · next h => simp [h.1, h.2]
  · next h =>
      simp only [not_and, not_not] at h
      simp only [pure_run, Prod.mk.injEq, true_and]
      exact ⟨fun heq => ⟨h, heq.symm⟩, fun heq => heq.2.symm⟩

/-- At the start of the input lies what the input begins with. -/
lemma here_new {input : Slice 1 UInt8} {bs : List UInt8} :
    Tape.Here (new input) bs ↔ ∃ rest, input.elems = bs ++ rest := by
  constructor
  · rintro ⟨hslice, -⟩
    obtain ⟨-, -, htake⟩ := slice_eq_some.mp hslice
    refine ⟨input.elems.drop bs.length, ?_⟩
    have htake : input.elems.take bs.length = bs := by simpa [new] using htake
    rw [← congrArg (· ++ input.elems.drop bs.length) htake, List.take_append_drop]
  · rintro ⟨rest, hinput⟩
    refine ⟨?_, fun _ h => nomatch h⟩
    rw [show (new input).input = input from rfl, hinput]
    exact slice_append [] bs rest

/-- Read the whole of an input with `m`. -/
def whole {α : Type} (m : Act Cursor Error α) (trailing : TrailingBytes) (input : Slice 1 UInt8) :
    Outcome Error α :=
  ((m >>= fun a => finish trailing >>= fun _ => pure a) (new input)).1

/-- What `whole` accepts begins with a spelling, and is one if trailing bytes are rejected. -/
lemma whole_eq_ok {α : Type} {m : Act Cursor Error α} {L : α → List UInt8 → Prop}
    {trailing : TrailingBytes} {input : Slice 1 UInt8} {a : α} (h : Spells Always m L) :
    whole m trailing input = .ok a ↔
      ∃ bs rest, L a bs ∧ input.elems = bs ++ rest ∧ (trailing = .reject → rest = []) := by
  have hstart : Tape.Here (new input) ([] : List UInt8) := here_new.mpr ⟨input.elems, rfl⟩
  have hlength : ∀ {bs rest : List UInt8}, input.elems = bs ++ rest →
      ((Tape.advance (new input) bs.length).position =
        (Tape.advance (new input) bs.length).input.elems.length ↔ rest = []) := by
    intro bs rest hinput
    have hlen := congrArg List.length hinput
    rw [List.length_append] at hlen
    rw [← List.length_eq_zero_iff, show (Tape.advance (new input) bs.length).position = bs.length
      from Nat.zero_add _, show (Tape.advance (new input) bs.length).input = input from rfl]
    omega
  rw [whole, bind_fst_eq_ok]
  simp only [bind_fst_eq_ok, finish_eq_ok]
  constructor
  · rintro ⟨a, s, hm, _, _, ⟨hend, rfl⟩, hpure⟩
    cases hpure
    obtain ⟨bs, hL, hhere, rfl⟩ := (h _ trivial hstart _ _).mp hm
    obtain ⟨rest, hinput⟩ := here_new.mp hhere
    exact ⟨bs, rest, hL, hinput, fun htrailing => (hlength hinput).mp (hend htrailing)⟩
  · rintro ⟨bs, rest, hL, hinput, hend⟩
    exact ⟨a, _, (h _ trivial hstart _ _).mpr ⟨bs, hL, here_new.mpr ⟨rest, hinput⟩, rfl⟩, (), _,
      ⟨fun htrailing => (hlength hinput).mpr (hend htrailing), rfl⟩, rfl⟩

lemma reads_take (bs : List UInt8) : Reads (take bs.length) bs bs :=
  .of_spells (spells_take bs.length) (fun _ => trivial) ⟨rfl, rfl⟩

lemma reads_number {width n : ℕ} (hn : n < 256 ^ width) :
    Reads (number width) n (leBytes width n) :=
  .of_spells (spells_number width) (fun _ => trivial) ⟨hn, rfl⟩

/-- What is there is no more than what is left. -/
lemma length_le_remaining {s : Cursor} {bs : List UInt8} (h : Tape.Here s bs) :
    bs.length ≤ s.remaining := by
  have hend := (slice_eq_some.mp h.1).2.1
  rw [remaining]
  omega

lemma whole_of_reads {α : Type} {m : Act Cursor Error α} {a : α} {input : Slice 1 UInt8}
    (h : Reads m a input.elems) (trailing : TrailingBytes) : whole m trailing input = .ok a := by
  have hhere : Tape.Here (new input) input.elems := here_new.mpr ⟨[], (List.append_nil _).symm⟩
  have hfinish : finish trailing (Tape.advance (new input) input.elems.length)
      = (.ok (), Tape.advance (new input) input.elems.length) :=
    finish_eq_ok.mpr ⟨fun _ => Nat.zero_add _, rfl⟩
  rw [whole, bind_of_ok (h _ hhere), bind_of_ok hfinish]
  rfl

end Cursor

end RustBinary
