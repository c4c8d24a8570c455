import RustBinary.Compact.Types
import RustBinary.Core.Canonical
import RustBinary.Lib.Script
import RustBinary.Native.Sinks

/-!
# The compact encoder

The encoder of the compact profile is driven by the type of the value: no tags and no names, and a
length in front of every collection.  It runs on any sink; `BoundedWriter` is the sink that counts
bytes and open collections against the limits of the configuration.
-/

namespace RustBinary.Compact

open Lib Lib.Act Native

/-- `EncodeWriter`, with the two calls around a collection, which do nothing unless the sink says
so. -/
class ContainerWriter (W : Type) extends EncodeWriter W where
  enterContainer : Act W Error Unit := pure ()
  exitContainer : Act W Error Unit := pure ()

open EncodeWriter (writeAll)
open ContainerWriter (enterContainer exitContainer)

section Primitives

variable {W : Type} [ContainerWriter W]

/-- `encode_varint` and `encode_varint_u128`. -/
def encodeVarint (value : ℕ) : Act W Error Unit := writeAll (encodeVarintLe value)

/-- `encode_zigzag` and `encode_zigzag_i128`. -/
def encodeZigzag (value : ℤ) : Act W Error Unit := encodeVarint (zigzagEncode value)

def boolByte (value : Bool) : UInt8 := if value then 1 else 0

def encodeBool (value : Bool) : Act W Error Unit := writeAll [boolByte value]

def encodeLength (len : ℕ) : Act W Error Unit :=
  if len ≤ u64Max then encodeVarint len else throw (.integerOverflow "u64")

def encodeBytes (bytes : List UInt8) : Act W Error Unit := do
  encodeLength bytes.length
  writeAll bytes

def writeVarintInto (value : ℕ) : List UInt8 :=
  if value ≤ 250 then [UInt8.ofNat value]
  else if value ≤ 0xffff then markerU16 :: leBytes 2 value
  else if value ≤ 0xffffffff then markerU32 :: leBytes 4 value
  else markerU64 :: leBytes 8 value

/-- The loop of `encode_varints_bulk`, with `buffer` for the first `used` bytes of the buffer.  A
varint that does not fit behind them aborts. -/
def varintsLoop (buffer : List UInt8) : List ℕ → Act W Error Unit
  | [] => if 0 < buffer.length then writeAll buffer else pure ()
  | value :: rest =>
      let bytes := writeVarintInto value
      if 64 < buffer.length + 17 then do
        writeAll buffer
        if 64 < bytes.length then panic else varintsLoop bytes rest
      else if 64 < buffer.length + bytes.length then panic
      else varintsLoop (buffer ++ bytes) rest

def encodeVarintsBulk (values : List ℕ) : Act W Error Unit := varintsLoop [] values

/-- One call of `f` after the other. -/
def encodeAll {α : Type} (f : α → Act W Error Unit) : List α → Act W Error Unit
  | [] => pure ()
  | a :: rest => do
      f a
      encodeAll f rest

/-- `write_f64_slice_le` and `write_f32_slice_le`. -/
def writeFloatsLe [Target] (w : FloatWidth) (values : List (BitVec w.bits)) : Act W Error Unit :=
  if Target.littleEndian then do
    let _ ← okOr (checkedMul values.length w.bytes) (.integerOverflow "usize")
    writeAll (values.flatMap fun value => leBytes w.bytes value.toNat)
  else encodeAll (fun value => writeAll (leBytes w.bytes value.toNat)) values

/-- `encode_compact` of the primitive types. -/
def Scalar.encode : (s : Scalar) → s.Value → Act W Error Unit
  | .unit, _ => pure ()
  | .bool, value => encodeBool value
  | .u8, value => writeAll [value]
  | .i8, value => writeAll [Int8.toUInt8 value]
  | .unsigned _, value => encodeVarint (BitVec.toNat value)
  | .signed _, value => encodeZigzag (BitVec.toInt value)
  | .u128, value => encodeVarint (BitVec.toNat value)
  | .i128, value => encodeZigzag (BitVec.toInt value)
  | .float w, value => writeAll (leBytes w.bytes (BitVec.toNat value))
  | .char, value => encodeVarint (Char.toNat value)
  | .string, value => encodeBytes (toUtf8 value)
  | .bytes, value => do
      encodeLength (List.length value)
      enterContainer
      (writeAll value).leaving exitContainer

/-- `encode_elements`. -/
def Scalar.encodeElements [Target] : (s : Scalar) → List s.Value → Act W Error Unit
  | .u8, values => writeAll values
  | .i8, values => writeAll (List.map Int8.toUInt8 values)
  | .float w, values => writeFloatsLe w values
  | .unsigned _, values => encodeVarintsBulk (List.map BitVec.toNat values)
  | .signed _, values =>
      encodeVarintsBulk (List.map (fun value => zigzagEncode (BitVec.toInt value) % 2 ^ 64) values)
  | s, values => encodeAll s.encode values

/-- `encode_elements`, with `encode` for the elements that are not primitive. -/
def CompactType.encodeElements [Target] :
    (t : CompactType) → (t.Value → Act W Error Unit) → List t.Value → Act W Error Unit
  | .scalar s, _, values => s.encodeElements values
  | _, encode, values => encodeAll encode values

/-- What all collections do: the length, and the elements between the two calls. -/
def encodeContainer (len : ℕ) (elements : Act W Error Unit) : Act W Error Unit := do
  encodeLength len
  enterContainer
  elements.leaving exitContainer

end Primitives

section Types

variable {W : Type} [ContainerWriter W] [Target]

mutual

/-- `encode_compact`. -/
def CompactType.encode : (t : CompactType) → t.Value → Act W Error Unit
  | .scalar s, value => s.encode value
  | .option _, none => encodeBool false
  | .option t, some value => do
      encodeBool true
      t.encode value
  | .vec t, values => encodeContainer (List.length values) (t.encodeElements t.encode values)
  | .deque t, (head, tail) =>
      encodeContainer (head.length + tail.length) do
        t.encodeElements t.encode head
        t.encodeElements t.encode tail
  | .array _ t, values => t.encodeElements t.encode values
  | .map _ key value, entries =>
      encodeContainer (List.length entries)
        (encodeAll (fun entry => do key.encode entry.1; value.encode entry.2) entries)
  | .struct fields, values => fields.encode values
  | .enum variants, value => variants.encode 0 value

/-- The statements of the fields. -/
def Fields.encode : (fields : Fields) → fields.Values → Act W Error Unit
  | .nil, _ => pure ()
  | .cons t rest, (value, values) => do
      t.encode value
      rest.encode values

/-- The arms of the variants, from the index `index` on. -/
def Variants.encode : (variants : Variants) → ℕ → variants.Value → Act W Error Unit
  | .cons fields _, index, .inl values => do
      encodeVarint (index % 2 ^ 32)
      fields.encode values
  | .cons _ rest, index, .inr value => rest.encode (index + 1) value

end

end Types

/-! ## Sinks and entry points -/

instance : ContainerWriter CountWriter where

/-- `BoundedWriter`. -/
structure BoundedWriter (W : Type) where
  inner : W
  limit : Option ℕ
  depthLimit : ℕ
  written : ℕ
  depth : ℕ

namespace BoundedWriter

variable {W : Type} [EncodeWriter W]

def new (inner : W) (config : Config) : BoundedWriter W where
  inner := inner
  limit := config.limit
  depthLimit := config.depthLimit
  written := 0
  depth := 0

/-- The inner sink takes the bytes, and then they count. -/
def forward (bytes : List UInt8) (next : ℕ) : Act (BoundedWriter W) Error Unit := fun w =>
  match writeAll bytes w.inner with
  | (.ok (), inner) => (.ok (), { w with inner := inner, written := next })
  | (.err e, inner) => (.err e, { w with inner := inner })
  | (.panic, inner) => (.panic, { w with inner := inner })
  | (.diverge, inner) => (.diverge, { w with inner := inner })

def write (bytes : List UInt8) : Act (BoundedWriter W) Error Unit := do
  if bytes.length ≤ u64Max then
    let w ← get
    let next ← okOr (checkedAdd w.written bytes.length) (.sizeLimit u64Max)
    atMost w.limit next .sizeLimit
    forward bytes next
  else throw (.integerOverflow "u64")

def depthError : Error := .custom "compact encode nesting depth limit exceeded"

def enter : Act (BoundedWriter W) Error Unit := do
  let w ← get
  if w.depthLimit ≤ w.depth then throw depthError
  else modify fun w => { w with depth := w.depth + 1 }

/-- The count of open collections aborts below zero. -/
def exit : Act (BoundedWriter W) Error Unit := do
  let w ← get
  if w.depth = 0 then panic else modify fun w => { w with depth := w.depth - 1 }

instance : ContainerWriter (BoundedWriter W) where
  writeAll := write
  enterContainer := enter
  exitContainer := exit

end BoundedWriter

section EntryPoints

variable [Target] (config : Config) (t : CompactType) (value : t.Value)

/-- `CompactConfig::serialize`. -/
def serialize : Outcome Error (List UInt8) := do
  let (outcome, w) := t.encode value (BoundedWriter.new (⟨[]⟩ : VecWriter) config)
  outcome
  pure w.inner.output

/-- `CompactConfig::serialize_into_slice`, on the output. -/
def serializeIntoSlice (output : List UInt8) : Outcome Error ℕ × List UInt8 :=
  let (outcome, w) := t.encode value (BoundedWriter.new (SliceWriter.new output) config)
  (outcome >>= fun _ => w.inner.finish, w.inner.output)

/-- `CompactConfig::serialized_size`. -/
def serializedSize : Outcome Error ℕ := do
  let (outcome, w) := t.encode value CountWriter.new
  outcome
  pure w.written

end EntryPoints

end RustBinary.Compact
