import RustBinary.Bitpack.Bits
import Mathlib.Data.Nat.Size

/-!
# Bit-packed types

The values that a field of a declared width may have, the types that the `BitPacked` derive
accepts, and the code that it generates for them: fields are packed one behind the other, and an
enum has the index of its variant in front, in as many bits as the number of variants asks for.
-/

namespace RustBinary.Bitpack

open Lib Lib.Act

/-! ## Scalars -/

/-- The widths of the integer types, in bytes. -/
inductive IntWidth where
  | w8
  | w16
  | w32
  | w64
  | w128
deriving DecidableEq, Repr

namespace IntWidth

def bytes : IntWidth → ℕ
  | w8 => 1
  | w16 => 2
  | w32 => 4
  | w64 => 8
  | w128 => 16

/-- `BITS`. -/
def bits (w : IntWidth) : ℕ := 8 * w.bytes

end IntWidth

/-- The types with `BitValue`. -/
inductive Scalar where
  | bool
  | unsigned (w : IntWidth)
  | signed (w : IntWidth)
deriving DecidableEq, Repr

namespace Scalar

/-- The values of a type; a signed integer is in two's complement. -/
def Value : Scalar → Type
  | bool => Bool
  | unsigned w => BitVec w.bits
  | signed w => BitVec w.bits

def bytes : Scalar → ℕ
  | bool => 1
  | unsigned w => w.bytes
  | signed w => w.bytes

/-- The sign extension of `decode_bits`. -/
def signExtend (value width : ℕ) : ℤ :=
  if width = 128 then (BitVec.ofNat 128 value).toInt
  else if value &&& 2 ^ (width - 1) ≠ 0 then
    (BitVec.ofNat 128 value ||| BitVec.allOnes 128 <<< width).toInt
  else (BitVec.ofNat 128 value).toInt

/-- `encode_bits`. -/
def encodeBits : (s : Scalar) → s.Value → ℕ → Outcome Error ℕ
  | bool, value, width =>
      if width ≠ 1 then .err (.bitPacking "boolean fields require exactly one bit")
      else .ok (Bool.toNat value)
  | unsigned w, value, width =>
      if width = 0 ∨ w.bits < width then .err (.bitPacking "invalid unsigned field width")
      else if width < 128 ∧ 2 ^ width ≤ BitVec.toNat value then
        .err (.bitPacking "unsigned field value is out of range")
      else .ok (BitVec.toNat value)
  | signed w, value, width =>
      if width = 0 ∨ w.bits < width then .err (.bitPacking "invalid signed field width")
      else
        let value := BitVec.toInt value
        if value < -2 ^ (width - 1) ∨ 2 ^ (width - 1) - 1 < value then
          .err (.bitPacking "signed field value is out of range")
        else
          let mask := if width = 128 then 2 ^ 128 - 1 else 2 ^ width - 1
          .ok ((BitVec.ofInt 128 value).toNat &&& mask)

/-- `decode_bits`. -/
def decodeBits : (s : Scalar) → ℕ → ℕ → Outcome Error s.Value
  | bool, value, width =>
      if width ≠ 1 ∨ 1 < value then .err (.bitPacking "invalid packed boolean")
      else .ok (value != 0)
  | unsigned w, value, width =>
      if width = 0 ∨ w.bits < width ∨ 2 ^ w.bits - 1 < value then
        .err (.bitPacking "invalid packed unsigned value")
      else .ok (BitVec.ofNat w.bits value)
  | signed w, value, width =>
      if width = 0 ∨ w.bits < width then .err (.bitPacking "invalid packed signed width")
      else
        let signed := signExtend value width
        if signed < -2 ^ (w.bits - 1) ∨ 2 ^ (w.bits - 1) - 1 < signed then
          .err (.bitPacking "invalid packed signed value")
        else .ok (BitVec.ofInt w.bits signed)

/-- `MAX_BITS` of the primitive types. -/
def maxBits : Scalar → ℕ
  | bool => 1
  | unsigned w => w.bits
  | signed w => w.bits

/-- `pack` of the primitive types. -/
def pack : (s : Scalar) → s.Value → Act BitWriter Error Unit
  | bool, value => BitWriter.write (Bool.toNat value) 1
  | unsigned w, value => do
      let word ← call (encodeBits (unsigned w) value w.bits)
      BitWriter.write word w.bits
  | signed w, value => do
      let word ← call (encodeBits (signed w) value w.bits)
      BitWriter.write word w.bits

/-- `unpack` of the primitive types. -/
def unpack : (s : Scalar) → Act BitReader Error s.Value
  | bool => do
      let value ← BitReader.read 1
      pure (value != 0)
  | unsigned w => do
      let value ← BitReader.read w.bits
      call (decodeBits (unsigned w) value w.bits)
  | signed w => do
      let value ← BitReader.read w.bits
      call (decodeBits (signed w) value w.bits)

end Scalar

/-! ## Types -/

mutual

/-- A type with `BitPack`: a primitive one, or a struct or an enum with the derive. -/
inductive PackType where
  | scalar (s : Scalar)
  | struct (fields : Fields)
  | enum (variants : Variants)

/-- The fields of a struct or a variant; some have a width declared with `#[bits]`. -/
inductive Fields where
  | nil
  | declared (s : Scalar) (width : ℕ) (rest : Fields)
  | nested (t : PackType) (rest : Fields)

/-- The variants of an enum. -/
inductive Variants where
  | nil
  | cons (fields : Fields) (rest : Variants)

end

mutual

def PackType.Value : PackType → Type
  | .scalar s => s.Value
  | .struct fields => fields.Values
  | .enum variants => variants.Value

def Fields.Values : Fields → Type
  | .nil => Unit
  | .declared s _ rest => s.Value × rest.Values
  | .nested t rest => t.Value × rest.Values

def Variants.Value : Variants → Type
  | .nil => Empty
  | .cons fields rest => fields.Values ⊕ rest.Value

end

def Variants.length : Variants → ℕ
  | .nil => 0
  | .cons _ rest => rest.length + 1

/-- The bits of the index of a variant: `usize::BITS` less the leading zeros of the last index. -/
def Variants.tagBits (variants : Variants) : ℕ :=
  if variants.length ≤ 1 then 0 else Nat.size (variants.length - 1)

/-- `__bitpack_max`. -/
def bitpackMax (left right : ℕ) : ℕ := if right < left then left else right

mutual

/-- `MAX_BITS`. -/
def PackType.maxBits : PackType → ℕ
  | .scalar s => s.maxBits
  | .struct fields => fields.bitCount 0
  | .enum variants => saturatingAdd variants.tagBits (variants.maximum 0)

/-- `bit_count`, from `total` on. -/
def Fields.bitCount : Fields → ℕ → ℕ
  | .nil, total => total
  | .declared _ width rest, total => rest.bitCount (saturatingAdd total width)
  | .nested t rest, total => rest.bitCount (saturatingAdd total t.maxBits)

/-- The largest count of the variants, from `maximum` on. -/
def Variants.maximum : Variants → ℕ → ℕ
  | .nil, maximum => maximum
  | .cons fields rest, maximum => rest.maximum (bitpackMax maximum (fields.bitCount 0))

end

mutual

/-- `pack`. -/
def PackType.pack : (t : PackType) → t.Value → Act BitWriter Error Unit
  | .scalar s, value => s.pack value
  | .struct fields, values => fields.pack values
  | .enum variants, value => variants.pack variants.tagBits 0 value

/-- The `pack_statement`s of the fields. -/
def Fields.pack : (fields : Fields) → fields.Values → Act BitWriter Error Unit
  | .nil, _ => pure ()
  | .declared s width rest, (value, values) => do
      let word ← call (s.encodeBits value width)
      BitWriter.write word width
      rest.pack values
  | .nested t rest, (value, values) => do
      t.pack value
      rest.pack values

/-- The arms of the variants, from the index `index` on. -/
def Variants.pack (tagBits : ℕ) : (variants : Variants) → ℕ → variants.Value →
    Act BitWriter Error Unit
  | .cons fields _, index, .inl values => do
      BitWriter.write index tagBits
      fields.pack values
  | .cons _ rest, index, .inr value => rest.pack tagBits (index + 1) value

end

mutual

/-- `unpack`. -/
def PackType.unpack : (t : PackType) → Act BitReader Error t.Value
  | .scalar s => s.unpack
  | .struct fields => fields.unpack
  | .enum variants => do
      let tag ← BitReader.read variants.tagBits
      variants.unpack tag

/-- The `unpack_expression`s of the fields. -/
def Fields.unpack : (fields : Fields) → Act BitReader Error fields.Values
  | .nil => pure ()
  | .declared s width rest => do
      let word ← BitReader.read width
      let value ← call (s.decodeBits word width)
      let values ← rest.unpack
      pure (value, values)
  | .nested t rest => do
      let value ← t.unpack
      let values ← rest.unpack
      pure (value, values)

/-- The arm of the variant with the index `tag`. -/
def Variants.unpack : (variants : Variants) → ℕ → Act BitReader Error variants.Value
  | .nil, _ => throw (.bitPacking "unknown packed enum variant")
  | .cons fields _, 0 => do
      let values ← fields.unpack
      pure (.inl values)
  | .cons _ rest, tag + 1 => do
      let value ← rest.unpack tag
      pure (.inr value)

end

/-! ## Types that are accepted -/

mutual

/-- What the derive asks of a type: declared widths from 1 to 128, and variants in an enum. -/
def PackType.Accepted : PackType → Prop
  | .scalar _ => True
  | .struct fields => fields.Accepted
  | .enum variants => variants.length ≠ 0 ∧ variants.length ≤ u64Max ∧ variants.Accepted

def Fields.Accepted : Fields → Prop
  | .nil => True
  | .declared _ width rest => 1 ≤ width ∧ width ≤ 128 ∧ rest.Accepted
  | .nested t rest => t.Accepted ∧ rest.Accepted

def Variants.Accepted : Variants → Prop
  | .nil => True
  | .cons fields rest => fields.Accepted ∧ rest.Accepted

end

mutual

/-- The bytes that a value takes in memory, when no two of its parts share a byte. -/
def PackType.size : PackType → ℕ
  | .scalar s => s.bytes
  | .struct fields => fields.size
  | .enum variants => (variants.tagBits + 7) / 8 + variants.size

def Fields.size : Fields → ℕ
  | .nil => 0
  | .declared s _ rest => s.bytes + rest.size
  | .nested t rest => t.size + rest.size

def Variants.size : Variants → ℕ
  | .nil => 0
  | .cons fields rest => max fields.size rest.size

end

/-- A type with the derive.  The compiler lays out no type of `2 ^ 61` bytes, so that the size of a
type in bits is a `usize`. -/
structure PackedType where
  type : PackType
  accepted : type.Accepted
  size_lt : type.size < 2 ^ 61

/-! ## The configuration -/

/-- `serialize_into_slice`, on the output. -/
def serializeIntoSlice (base : Config) (t : PackType) (value : t.Value) (output : List UInt8) :
    Outcome Error ℕ × List UInt8 :=
  let maximum := bytesForBits t.maxBits
  if output.length < maximum then (.err (.bufferTooSmall maximum output.length), output)
  else
    let (outcome, writer) := t.pack value (BitWriter.new output)
    let written := do
      outcome
      let written := writer.bytesWritten
      base.enforceByteLimit written
      pure written
    (written, writer.output)

/-- `serialize`. -/
def serialize (base : Config) (t : PackType) (value : t.Value) : Outcome Error (List UInt8) := do
  let maximum := bytesForBits t.maxBits
  base.enforceByteLimit maximum
  withCapacity 1 maximum
  let (outcome, output) := serializeIntoSlice base t value (List.replicate maximum 0)
  let written ← outcome
  pure (output.take written)

/-- `deserialize`. -/
def deserialize (base : Config) (t : PackType) (input : Slice 1 UInt8) :
    Outcome Error t.Value := do
  base.enforceByteLimit input.elems.length
  let whole : Act BitReader Error t.Value := do
    let value ← t.unpack
    BitReader.validateEnd base.trailing
    pure value
  (whole (BitReader.new input)).1

end RustBinary.Bitpack
