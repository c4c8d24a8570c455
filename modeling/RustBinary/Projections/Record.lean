import RustBinary.Lib.Outcome
import RustBinary.Lib.Bytes
import RustBinary.Core.Config
import Mathlib.Data.List.Sort
import Mathlib.Data.List.Destutter

/-!
# Self-authenticating records

A record is a header, a list of fields in increasing order of their identifiers and a root
over them.  This file has the records with their parser, and the queries that select fields.

Identifiers, lengths and versions are 32 bits wide.  The reservations of the parser are
taken to succeed.
-/

namespace RustBinary.Projections

open Lib Lib.Outcome

/-- Stable application field identifier inside one record. -/
abbrev FieldId : Type := UInt32

/-- A 32-byte hash. -/
abbrev Digest : Type := Vector UInt8 32

/-- `[0u8; 32]`, the padding of the leaves. -/
def zeroDigest : Digest := Vector.replicate 32 0

/-- `RBPJ`. -/
def magic : List UInt8 := [0x52, 0x42, 0x50, 0x4a]

def formatVersion : ℕ := 1

/-- The record carries a Merkle-authenticated root. -/
def flagMerkle : ℕ := 0x0001

def headerLen : ℕ := 16

/-- Size of the trailing authenticated root. -/
def authLen : ℕ := 32

inductive ProjectionError where
  | badMagic
  | unsupportedVersion (version : ℕ)
  | unsupportedFlags (flags : ℕ)
  | unexpectedEnd
  | trailingBytes
  | duplicateField (fieldId : FieldId)
  | nonCanonicalOrder
  | fieldLimit (limit : ℕ)
  | payloadLimit (limit : ℕ)
  | recordLimit (limit : ℕ)
  | invalidQuery
  | incompleteProof
  | rootMismatch
  | treeGeometry
deriving DecidableEq, Repr

/-- What a function of the format comes back with. -/
abbrev Result (α : Type) : Type := Outcome ProjectionError α

/-- Resource policy applied before parsing. -/
structure ProjectionLimits where
  maxFields : ℕ
  maxPayloadLen : ℕ
  maxRecordLen : ℕ

/-- `ProjectionLimits::new`. -/
def ProjectionLimits.new : ProjectionLimits where
  maxFields := 262144
  maxPayloadLen := 16 * 1024 * 1024
  maxRecordLen := 256 * 1024 * 1024

/-! ## Queries -/

/-- A projection query: the identifiers in increasing order. -/
structure Projection where
  fields : List FieldId
  sorted : fields.Pairwise (· < ·)

namespace Projection

/-- `sort_unstable` and `dedup`. -/
def sortDedup (ids : List FieldId) : List FieldId :=
  (ids.insertionSort (· ≤ ·)).destutter (· ≠ ·)

lemma sortDedup_sorted (ids : List FieldId) : (sortDedup ids).Pairwise (· < ·) := by
  have hle : (sortDedup ids).IsChain (· ≤ ·) :=
    ((List.pairwise_insertionSort (· ≤ ·) ids).sublist (List.destutter_sublist _ _)).isChain
  have hne : (sortDedup ids).IsChain (· ≠ ·) := List.isChain_destutter _ _
  have hlt : (sortDedup ids).IsChain (· < ·) :=
    List.isChain_iff_getElem.mpr fun i hi => UInt32.lt_of_le_of_ne
      (List.isChain_iff_getElem.mp hle i hi) (List.isChain_iff_getElem.mp hne i hi)
  exact hlt.pairwise

/-- `Projection::new`. -/
def new (ids : List FieldId) : Projection := ⟨sortDedup ids, sortDedup_sorted ids⟩

/-- Whether the query selects `id` (a binary search in the sorted identifiers). -/
def contains (q : Projection) (id : FieldId) : Bool := q.fields.contains id

def isEmpty (q : Projection) : Bool := q.fields.isEmpty

example : (new [5, 2, 5, 1]).fields = [1, 2, 5] := by decide

end Projection

/-! ## Records -/

structure ParsedField where
  fieldId : FieldId
  payload : List UInt8
deriving DecidableEq, Repr

/-- A parsed record. -/
structure Record where
  schemaVersion : UInt32
  fields : List ParsedField
  root : Digest
deriving DecidableEq

/-- `read_u32`: the value and the cursor behind it. -/
def readU32 (input : Input) (cursor : ℕ) : Result (UInt32 × ℕ) := do
  let stop ← okOr (checkedAdd cursor 4) .unexpectedEnd
  let bytes ← okOr (slice input.bytes cursor stop) .unexpectedEnd
  pure (UInt32.ofNat (leNat bytes), stop)

/-- `id` is above the identifier before it, if there is one. -/
def follows (prev : Option FieldId) (id : FieldId) : Bool :=
  match prev with
  | some prev => prev < id
  | none => true

/-- One round of the field loop, after a field with identifier `prev`: the field and the
cursor behind it. -/
def parseField (input : Input) (limits : ProjectionLimits) (cursor : ℕ) (prev : Option FieldId) :
    Result (ParsedField × ℕ) := do
  let (id, cursor) ← readU32 input cursor
  let (len, cursor) ← readU32 input cursor
  require (len.toNat ≤ limits.maxPayloadLen) (.payloadLimit limits.maxPayloadLen)
  require (follows prev id) .nonCanonicalOrder
  let payloadEnd ← okOr (checkedAdd cursor len.toNat) .unexpectedEnd
  let payload ← okOr (slice input.bytes cursor payloadEnd) .unexpectedEnd
  pure (⟨id, payload⟩, payloadEnd)

/-- The field loop, with `count` fields to go. -/
def parseFields (input : Input) (limits : ProjectionLimits) :
    ℕ → ℕ → Option FieldId → Result (List ParsedField × ℕ)
  | 0, cursor, _ => pure ([], cursor)
  | count + 1, cursor, prev => do
      let (field, cursor) ← parseField input limits cursor prev
      let (rest, cursor) ← parseFields input limits count cursor (some field.fieldId)
      pure (field :: rest, cursor)

/-- The 32 bytes as a digest. -/
def toDigest (bytes : List UInt8) : Option Digest :=
  if h : bytes.length = 32 then some ⟨bytes.toArray, by simpa using h⟩ else none

/-- A little-endian field of the header. -/
def headerField (input : Input) (start width : ℕ) : Result ℕ := do
  let bytes ← orPanic (slice input.bytes start (start + width))
  pure (leNat bytes)

/-- `parse_record`. -/
def parseRecord (input : Input) (limits : ProjectionLimits) : Result Record := do
  require (input.bytes.length ≤ limits.maxRecordLen) (.recordLimit limits.maxRecordLen)
  require (headerLen + authLen ≤ input.bytes.length) .unexpectedEnd
  require (input.bytes.take 4 = magic) .badMagic
  let version ← headerField input 4 2
  require (version = formatVersion) (.unsupportedVersion version)
  let flags ← headerField input 6 2
  require (flags = flagMerkle) (.unsupportedFlags flags)
  let fieldCount ← headerField input 8 4
  let schemaVersion ← headerField input 12 4
  require (fieldCount ≤ limits.maxFields) (.fieldLimit limits.maxFields)
  let (fields, cursor) ← parseFields input limits fieldCount headerLen none
  let rootBytes ← okOr (slice input.bytes cursor (cursor + authLen)) .unexpectedEnd
  require (cursor + authLen = input.bytes.length) .trailingBytes
  let root ← okOr (toDigest rootBytes) .unexpectedEnd
  pure ⟨UInt32.ofNat schemaVersion, fields, root⟩

/-- `Record::parse`. -/
def Record.parse (input : Input) (limits : ProjectionLimits) : Result Record :=
  parseRecord input limits

end RustBinary.Projections
