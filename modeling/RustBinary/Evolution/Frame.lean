import RustBinary.Core.Cursor
import RustBinary.Lib.Search
import Mathlib.Data.List.Sort

/-!
# Schema evolution frames

A frame carries the identity and the revision of a schema and a table of fields in increasing
order of their identifiers.  This file has the builder that an encoding fills, the parser, and the
decoder through which a decoding asks for fields and sees those it did not ask for.

The codec of the payloads is a parameter: an encoding hands over what `Config::serialize` gives
for a value, a decoding what `Config::deserialize` does with a payload.
-/

namespace RustBinary.Evolution

open Lib Lib.Act

/-- `RBE1`. -/
def magic : List UInt8 := [0x52, 0x42, 0x45, 0x31]

def formatVersion : ℕ := 1

def headerSize : ℕ := 24

def fieldHeaderSize : ℕ := 12

/-- `SCHEMA_ID` and `SCHEMA_VERSION` of an encoding. -/
structure Schema where
  id : UInt64
  version : UInt32
deriving DecidableEq

/-! ## The builder -/

structure EncodedField where
  id : UInt32
  payload : List UInt8
deriving DecidableEq, Repr

/-- A field on the wire. -/
def EncodedField.encode (field : EncodedField) : List UInt8 :=
  leBytes 4 field.id.toNat ++ (leBytes 8 field.payload.length ++ field.payload)

structure FieldEncoder where
  base : Config
  fields : List EncodedField

namespace FieldEncoder

def new (base : Config) : FieldEncoder := ⟨base, []⟩

/-- `field`, for a value that the base configuration serializes as `serialized`. -/
def field (id : UInt32) (serialized : Outcome Error (List UInt8)) :
    Act FieldEncoder Error Unit := do
  let encoder ← get
  if encoder.fields.any fun field => field.id = id then
    throw (.schemaEvolution "duplicate field ID")
  else
    let payload ← call serialized
    modify fun encoder => { encoder with fields := encoder.fields ++ [⟨id, payload⟩] }

/-- `sort_unstable_by_key` on the identifiers. -/
def sortByKey (fields : List EncodedField) : List EncodedField :=
  fields.insertionSort fun f g => f.id.toNat ≤ g.id.toNat

/-- The size of the frame, from `required` on. -/
def requiredSize : ℕ → List EncodedField → Option ℕ
  | required, [] => some required
  | required, field :: fields => do
      let size ← checkedAdd required fieldHeaderSize
      let size ← checkedAdd size field.payload.length
      requiredSize size fields

/-- The bytes of a frame. -/
def frame (schema : Schema) (fields : List EncodedField) : List UInt8 :=
  magic ++ (leBytes 2 formatVersion ++ (leBytes 2 0 ++ (leBytes 8 schema.id.toNat ++
    (leBytes 4 schema.version.toNat ++ (leBytes 4 fields.length ++
      fields.flatMap EncodedField.encode)))))

/-- `enforce_collection_limit`. -/
def enforceCollectionLimit (c : Config) (length : ℕ) : Outcome Error Unit :=
  match c.collectionLimit with
  | some limit => if limit < length then .err (.collectionLimit limit) else .ok ()
  | none => .ok ()

/-- `finish`. -/
def finish (schema : Schema) (encoder : FieldEncoder) : Outcome Error (List UInt8) := do
  let fields := sortByKey encoder.fields
  enforceCollectionLimit encoder.base fields.length
  let required ← Outcome.okOr (requiredSize headerSize fields)
    (.invalidFrame "schema evolution frame size overflow")
  encoder.base.enforceByteLimit required
  Outcome.require (fields.length < 2 ^ 32) (.integerOverflow "u32")
  -- `try_reserve_exact`
  Outcome.require (required ≤ isizeMax) (.sizeLimit u64Max)
  pure (frame schema fields)

end FieldEncoder

/-- An encoding that calls `field` for each identifier and serialized value. -/
def encodeFields : List (UInt32 × Outcome Error (List UInt8)) → Act FieldEncoder Error Unit
  | [] => pure ()
  | (id, serialized) :: calls => do
      FieldEncoder.field id serialized
      encodeFields calls

/-- `EvolutionConfig::serialize`. -/
def serialize (base : Config) (schema : Schema)
    (calls : List (UInt32 × Outcome Error (List UInt8))) : Outcome Error (List UInt8) :=
  match encodeFields calls (FieldEncoder.new base) with
  | (.ok (), encoder) => encoder.finish schema
  | (.err e, _) => .err e
  | (.panic, _) => .panic
  | (.diverge, _) => .diverge

/-! ## The parser -/

open Cursor

/-- A field of a parsed frame, and whether a decoding has asked for it. -/
structure Field where
  id : UInt32
  payload : List UInt8
  consumed : Bool
deriving DecidableEq, Repr

/-- Whether `id` is above the identifier before it, if there is one. -/
def Follows (previous : Option UInt32) (id : UInt32) : Prop :=
  ∀ last, previous = some last → last.toNat < id.toNat

instance (previous : Option UInt32) (id : UInt32) : Decidable (Follows previous id) :=
  match previous with
  | none => .isTrue fun _ h => by cases h
  | some last =>
      decidable_of_iff (last.toNat < id.toNat)
        ⟨fun h _ heq => Option.some.inj heq ▸ h, fun h => h last rfl⟩

/-- A round of the field loop, after the identifier `previous`. -/
def parseField (previous : Option UInt32) : Act Cursor Error Field := do
  let id ← UInt32.ofNat <$> number 4
  call (Outcome.require (Follows previous id)
    (.schemaEvolution "field IDs must be unique and strictly increasing"))
  let length ← number 8
  let payload ← take length
  pure ⟨id, payload, false⟩

/-- The field loop, with `count` fields to go. -/
def parseFields : ℕ → Option UInt32 → Act Cursor Error (List Field)
  | 0, _ => pure []
  | count + 1, previous => do
      let field ← parseField previous
      let rest ← parseFields count (some field.id)
      pure (field :: rest)

/-- The fields behind their count. -/
def parseTable (count : ℕ) : Act Cursor Error (List Field) := do
  let minimumHeaders ← okOr (checkedMul count fieldHeaderSize)
    (.invalidFrame "schema field table overflow")
  let cursor ← get
  call (Outcome.require (minimumHeaders ≤ cursor.remaining) .unexpectedEnd)
  parseFields count none

/-- The header of a frame for the schema `schemaId`: the version and the number of fields. -/
def parseHeader (schemaId : UInt64) : Act Cursor Error (UInt32 × ℕ) := do
  let start ← take 4
  call (Outcome.require (start = magic) (.invalidFrame "bad schema evolution magic"))
  let format ← number 2
  call (Outcome.require (format = formatVersion)
    (.invalidFrame "unsupported schema evolution format version"))
  let flags ← number 2
  call (Outcome.require (flags = 0) (.invalidFrame "unsupported schema evolution flags"))
  let actual ← number 8
  call (Outcome.require (actual = schemaId.toNat) (.schemaMismatch schemaId.toNat actual))
  let version ← number 4
  let count ← number 4
  pure (UInt32.ofNat version, count)

/-- The frame up to its last field: the version and the fields.  The reservation of fewer than
`2 ^ 32` fields succeeds. -/
def parseFrame (base : Config) (schemaId : UInt64) : Act Cursor Error (UInt32 × List Field) := do
  let (version, count) ← parseHeader schemaId
  atMost base.collectionLimit count .collectionLimit
  let fields ← parseTable count
  pure (version, fields)

/-- The part of `EvolutionConfig::deserialize` in front of the decoding. -/
def parse (base : Config) (schemaId : UInt64) (input : Slice 1 UInt8) :
    Outcome Error (UInt32 × List Field) := do
  base.enforceByteLimit input.elems.length
  Cursor.whole (parseFrame base schemaId) base.trailing input

/-! ## The decoder -/

structure FieldDecoder where
  base : Config
  fields : List Field

/-- `UnknownField`. -/
abbrev UnknownField : Type := EncodedField

namespace FieldDecoder

variable {α : Type}

/-- `optional`, for a value that the base configuration reads by `deserialize`. -/
def optional (deserialize : List UInt8 → Outcome Error α) (id : UInt32) :
    Act FieldDecoder Error (Option α) := do
  let decoder ← get
  match binarySearchByKey (fun field => field.id.toNat) decoder.fields id.toNat with
  | none => pure none
  | some index =>
      match decoder.fields[index]? with
      | none => panic
      | some field =>
          if field.consumed then
            throw (.schemaEvolution "field decoded more than once")
          else
            modify fun decoder =>
              { decoder with fields := decoder.fields.set index { field with consumed := true } }
            let value ← call (deserialize field.payload)
            pure (some value)

def required (deserialize : List UInt8 → Outcome Error α) (id : UInt32) :
    Act FieldDecoder Error α := do
  let value ← optional deserialize id
  okOr value (.schemaEvolution "required field is missing")

def orDefault (default : α) (deserialize : List UInt8 → Outcome Error α) (id : UInt32) :
    Act FieldDecoder Error α := do
  let value ← optional deserialize id
  pure (value.getD default)

def unknownFields (decoder : FieldDecoder) : List UnknownField :=
  (decoder.fields.filter fun field => !field.consumed).map fun field => ⟨field.id, field.payload⟩

end FieldDecoder

/-- `EvolutionConfig::deserialize`, for the decoding `decodeFields`. -/
def deserialize {α : Type} (base : Config) (schemaId : UInt64) (input : Slice 1 UInt8)
    (decodeFields : UInt32 → Act FieldDecoder Error α) : Outcome Error α := do
  let (version, fields) ← parse base schemaId input
  (decodeFields version ⟨base, fields⟩).1

end RustBinary.Evolution
