import RustBinary.Lib.Act
import RustBinary.Lib.Leb128
import RustBinary.Core.Slice

/-!
# Differential frames

The dynamic table of recently seen byte strings, and the frames of updates that refer to it.
A frame is encoded and decoded against a mutable table, so both are actions on it; the cursor
over a frame is local to a call.
-/

namespace RustBinary.Delta

open Lib Lib.Outcome

def magic : List UInt8 := [0x52, 0x42, 0x44, 0x4c]

def formatVersion : ℕ := 1

def flagResetTable : ℕ := 0x0001

def headerLen : ℕ := 16

/-- Entry tag: a reference into the dynamic table (index varint follows). -/
def tagRef : UInt8 := 0x00

/-- Entry tag: a literal value (length varint + bytes follow). -/
def tagLiteral : UInt8 := 0x01

/-! ## The table -/

/-- Deterministic FIFO dynamic table of recently seen byte strings, newest first. -/
structure DeltaTable where
  entries : List (List UInt8)
  maxEntries : ℕ
  length_le : entries.length ≤ maxEntries
  maxEntries_le : maxEntries ≤ u64Max
deriving DecidableEq

/-- `n` pops from the back. -/
def popBack : ℕ → List (List UInt8) → List (List UInt8)
  | 0, entries => entries
  | n + 1, entries => popBack n entries.dropLast

/-- Pops the oldest entries while there are more than `maxEntries`. -/
def evict (maxEntries : ℕ) (entries : List (List UInt8)) : List (List UInt8) :=
  popBack (entries.length - maxEntries) entries

/-- Popping the oldest entries keeps the newest. -/
lemma popBack_eq_take (n : ℕ) (entries : List (List UInt8)) :
    popBack n entries = entries.take (entries.length - n) := by
  induction n generalizing entries with
  | zero => rw [popBack, Nat.sub_zero, List.take_length]
  | succ n ih =>
      rw [popBack, ih, List.length_dropLast, List.dropLast_eq_take, List.take_take,
        show min (entries.length - 1 - n) (entries.length - 1) = entries.length - (n + 1) by omega]

lemma evict_eq_take (maxEntries : ℕ) (entries : List (List UInt8)) :
    evict maxEntries entries = entries.take maxEntries := by
  rw [evict, popBack_eq_take]
  rcases Nat.le_total entries.length maxEntries with h | h
  · rw [List.take_of_length_le (by omega), List.take_of_length_le h]
  · rw [Nat.sub_sub_self h]

namespace DeltaTable

/-- Creates an empty table with room for `maxEntries` values. -/
def new (maxEntries : ℕ) (h : maxEntries ≤ u64Max) : DeltaTable where
  entries := []
  maxEntries := maxEntries
  length_le := Nat.zero_le _
  maxEntries_le := h

/-- Returns the index of `value` (0 = newest) if present. -/
def lookup (t : DeltaTable) (value : List UInt8) : Option ℕ :=
  t.entries.findIdx? fun entry => entry == value

/-- Returns the value at `index` (0 = newest). -/
def get (t : DeltaTable) (index : ℕ) : Option (List UInt8) := t.entries[index]?

/-- The table with `value` at the front and the oldest entries gone. -/
def inserted (t : DeltaTable) (value : List UInt8) : DeltaTable :=
  if t.maxEntries = 0 then t
  else
    { t with
      entries := evict t.maxEntries (value :: t.entries)
      length_le := by
        rw [evict_eq_take]
        exact List.length_take_le _ _ }

/-- Inserts `value` at the front, evicting the oldest entry when full; returns the index the
value landed at. -/
def insert (value : List UInt8) : Act DeltaTable Error ℕ := fun t => (.ok 0, t.inserted value)

@[simp] lemma insert_bind_run {α : Type} (value : List UInt8) (f : ℕ → Act DeltaTable Error α)
    (t : DeltaTable) : (insert value >>= f) t = f 0 (t.inserted value) := rfl

/-- Clears the table. -/
def cleared (t : DeltaTable) : DeltaTable :=
  { t with
    entries := []
    length_le := Nat.zero_le _ }

@[ext] lemma ext {s t : DeltaTable} (h : s.entries = t.entries)
    (hmax : s.maxEntries = t.maxEntries) : s = t := by
  cases s
  cases t
  subst h hmax
  rfl

lemma inserted_entries (t : DeltaTable) (value : List UInt8) :
    (t.inserted value).entries = (value :: t.entries).take t.maxEntries := by
  rw [inserted]
  split
  · next h =>
      have hlen := t.length_le
      rw [h] at hlen
      rw [h, List.take_zero]
      exact List.eq_nil_of_length_eq_zero (by omega)
  · exact evict_eq_take _ _

@[simp] lemma inserted_maxEntries (t : DeltaTable) (value : List UInt8) :
    (t.inserted value).maxEntries = t.maxEntries := by
  rw [inserted]
  split <;> rfl

@[simp] lemma cleared_entries (t : DeltaTable) : t.cleared.entries = [] := rfl

@[simp] lemma cleared_maxEntries (t : DeltaTable) : t.cleared.maxEntries = t.maxEntries := rfl

end DeltaTable

/-! ## The encoder -/

/-- The loop of `encode_updates`. -/
def encodeEntries : List (List UInt8) → List UInt8 → Act DeltaTable Error (List UInt8)
  | [], payload => pure payload
  | value :: updates, payload => do
      let table ← Act.get
      match table.lookup value with
      | some index => encodeEntries updates (payload ++ (tagRef :: leb128 index))
      | none =>
          let _ ← DeltaTable.insert value
          encodeEntries updates (payload ++ (tagLiteral :: leb128 value.length) ++ value)

/-- The frame of `count` updates. -/
def frame (count : ℕ) (payload : List UInt8) : List UInt8 :=
  magic ++ leBytes 2 formatVersion ++ leBytes 2 0 ++ leBytes 8 count ++ payload

/-- An outcome, as an action that leaves the table alone. -/
def lift {α : Type} (o : Outcome Error α) : Act DeltaTable Error α := fun t => (o, t)

section Lift

variable {α β : Type} (f : α → Act DeltaTable Error β) (t : DeltaTable)

@[simp] lemma lift_ok_bind_run (a : α) : (lift (.ok a) >>= f) t = f a t := rfl

@[simp] lemma lift_err_bind_run (e : Error) : (lift (.err e) >>= f) t = (.err e, t) := rfl

@[simp] lemma lift_panic_bind_run : (lift .panic >>= f) t = (.panic, t) := rfl

@[simp] lemma lift_diverge_bind_run : (lift .diverge >>= f) t = (.diverge, t) := rfl

end Lift

/-- `DeltaConfig::encode_updates`. -/
def encodeUpdates (base : Config) (updates : List (List UInt8)) :
    Act DeltaTable Error (List UInt8) := do
  let payload ← encodeEntries updates []
  let total ← lift (okOr (checkedAdd headerLen payload.length) (.sizeLimit u64Max))
  lift (base.enforceByteLimit total)
  pure (frame updates.length payload)

/-! ## The decoder -/

/-- A position in a frame. -/
structure DeltaCursor where
  input : List UInt8
  pos : ℕ

namespace DeltaCursor

def byte (c : DeltaCursor) : Outcome Error (UInt8 × DeltaCursor) :=
  match c.input[c.pos]? with
  | some byte => .ok (byte, { c with pos := c.pos + 1 })
  | none => .err .unexpectedEnd

def take (c : DeltaCursor) (length : ℕ) : Outcome Error (List UInt8 × DeltaCursor) :=
  match checkedAdd c.pos length with
  | none => .err (.delta "delta length overflows")
  | some stop =>
      match slice c.input c.pos stop with
      | none => .err .unexpectedEnd
      | some bytes => .ok (bytes, { c with pos := stop })

/-- The loop of `varint`: twenty rounds reach the shift that is refused. -/
def varintLoop : ℕ → ℕ → ℕ → DeltaCursor → Outcome Error (ℕ × DeltaCursor)
  | 0, _, _, _ => .diverge
  | n + 1, shift, value, c =>
      match c.byte with
      | .ok (byte, c) =>
          if 128 ≤ shift then .err (.delta "delta varint overflows u128")
          else
            let low := (byte &&& 0x7f).toNat
            if 128 - shift < 7 ∧ low >>> (128 - shift) ≠ 0 then
              .err (.delta "delta varint overflows u128")
            else
              let value := value ||| low <<< shift
              if byte &&& 0x80 = 0 then .ok (value, c) else varintLoop n (shift + 7) value c
      | .err e => .err e
      | .panic => .panic
      | .diverge => .diverge

def varint (c : DeltaCursor) : Outcome Error (ℕ × DeltaCursor) := c.varintLoop 20 0 0

def usizeVarint (c : DeltaCursor) : Outcome Error (ℕ × DeltaCursor) := do
  let (value, c) ← c.varint
  if value ≤ u64Max then .ok (value, c) else .err (.delta "delta varint does not fit usize")

def finish (c : DeltaCursor) : Outcome Error Unit :=
  if c.pos ≠ c.input.length then .err (.trailingBytes (c.input.length - c.pos)) else .ok ()

end DeltaCursor

/-- The loop of `decode_updates`. -/
def decodeEntries : ℕ → DeltaCursor → List (List UInt8) →
    Act DeltaTable Error (List (List UInt8) × DeltaCursor)
  | 0, c, updates => pure (updates, c)
  | n + 1, c, updates => do
      let (tag, c) ← lift c.byte
      if tag = tagRef then
        let (index, c) ← lift c.varint
        if index ≤ u64Max then
          let table ← Act.get
          match table.get index with
          | some value => decodeEntries n c (updates ++ [value])
          | none => Act.throw (.delta "delta table reference out of range")
        else Act.throw (.delta "delta table index does not fit usize")
      else if tag = tagLiteral then
        let (length, c) ← lift c.usizeVarint
        let (value, c) ← lift (c.take length)
        let _ ← DeltaTable.insert value
        decodeEntries n c (updates ++ [value])
      else Act.throw (.delta "unknown delta entry tag")

/-- What `decode_updates` reads from the header: whether the table is reset, and the number of
entries. -/
def readHeader (base : Config) (input : List UInt8) : Outcome Error (Bool × ℕ) := do
  base.enforceByteLimit input.length
  let header ← okOr (slice input 0 headerLen) .unexpectedEnd
  require (header.take 4 = magic) (.invalidFrame "delta magic does not match")
  require (leNat ((header.drop 4).take 2) = formatVersion)
    (.invalidFrame "unsupported delta format version")
  let flags := leNat ((header.drop 6).take 2)
  require (flags &&& (0xffff - flagResetTable) = 0) (.invalidFrame "unknown delta frame flags")
  .ok (decide (flags &&& flagResetTable ≠ 0), leNat ((header.drop 8).take 8))

/-- `DeltaConfig::decode_updates`. -/
def decodeUpdates (base : Config) (input : Input) : Act DeltaTable Error (List (List UInt8)) := do
  let (reset, count) ← lift (readHeader base input.bytes)
  if reset then Act.modify DeltaTable.cleared else pure ()
  lift (withCapacity 24 count)
  let (updates, c) ← decodeEntries count ⟨input.bytes.drop headerLen, 0⟩ []
  lift c.finish
  pure updates

end RustBinary.Delta
