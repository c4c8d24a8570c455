import RustBinary.Lib.Tree
import RustBinary.Core.Canonical
import RustBinary.Core.Nextjson

/-!
# The self-describing encoder

The encoder of the self-describing wire, method by method, over a sink of bytes.  It counts the
bytes that it has written against the byte limit, and for each depth the entries of the open
container.  The sink is a vector where nothing else is said.

`writeValue` is a caller that drives it over a value: one `separator` call for each element of
an array and one `key` call for each entry of an object.
-/

namespace RustBinary.Native

open Lib Lib.Act

/-- A sink of bytes. -/
class EncodeWriter (W : Type) where
  writeAll : List UInt8 → Act W Error Unit

/-- A vector grows with every write. -/
instance : EncodeWriter (List UInt8) where
  writeAll bytes := modify fun output => output ++ bytes

/-- `Encoder<W>`. -/
structure EncoderTo (W : Type) where
  writer : W
  config : Config
  written : ℕ
  depth : ℕ
  counts : Vector ℕ maxDepth
  wireError : Option Error

/-- The encoder over a vector. -/
abbrev Encoder : Type := EncoderTo (List UInt8)

/-- An action of the encoder behind the `FormatEncoder` boundary. -/
abbrev EncTo (W α : Type) : Type := Act (EncoderTo W) NextjsonError α

/-- An action of the encoder over a vector. -/
abbrev Enc (α : Type) : Type := EncTo (List UInt8) α

namespace Encoder

variable {W : Type}

/-- The encoder that `to_writer` starts with. -/
def start (writer : W) (config : Config) : EncoderTo W where
  writer := writer
  config := config
  written := 0
  depth := 0
  counts := Vector.replicate maxDepth 0
  wireError := none

/-- The encoder over an empty vector. -/
def new (config : Config) : Encoder := start [] config

/-! ## Writing bytes -/

/-- `Err(self.fail(error))`. -/
def fail {α : Type} (error : Error) : EncTo W α := do
  modify fun s => { s with wireError := some error }
  throw (.custom "rustbinary wire error")

/-- `.map_err(|error| self.fail(error))?`. -/
def orFail {α : Type} (m : Act (EncoderTo W) Error α) : EncTo W α := onErr m fail

variable [EncodeWriter W]

/-- The sink takes the bytes, and then they count. -/
def writeCounted (bytes : List UInt8) (next : ℕ) : Act (EncoderTo W) Error Unit := fun s =>
  match EncodeWriter.writeAll bytes s.writer with
  | (.ok (), writer) => (.ok (), { s with writer := writer, written := next })
  | (.err e, writer) => (.err e, { s with writer := writer })
  | (.panic, writer) => (.panic, { s with writer := writer })
  | (.diverge, writer) => (.diverge, { s with writer := writer })

def emit (bytes : List UInt8) : Act (EncoderTo W) Error Unit := do
  let s ← get
  let next ← okOr (checkedAdd s.written bytes.length) (.sizeLimit u64Max)
  atMost s.config.limit next .sizeLimit
  writeCounted bytes next

def emitTag (tag : UInt8) : EncTo W Unit := orFail (emit [tag])

section Numbers

variable [Target]

/-- `fixed`: one of the two spellings of a number. -/
def fixed (little big : List UInt8) : EncTo W Unit := do
  let s ← get
  orFail (emit (if s.config.endian.isLittle then little else big))

/-- A marker and a payload that is not little-endian. -/
def emitWide (marker : UInt8) (width value : ℕ) : EncTo W Unit :=
  orFail (emit (marker :: beBytes width value))

def varint (value : ℕ) : EncTo W Unit := do
  let s ← get
  if s.config.endian.isLittle then orFail (emit (encodeVarintLe value))
  else if value ≤ 250 then emitTag (UInt8.ofNat value)
  else if value ≤ 0xffff then emitWide markerU16 2 value
  else if value ≤ 0xffffffff then emitWide markerU32 4 value
  else if value ≤ 0xffffffffffffffff then emitWide markerU64 8 value
  else emitWide markerU128 16 value

def unsigned (value fixedBytes : ℕ) : EncTo W Unit := do
  let s ← get
  if s.config.integers = .variable ∧ 1 < fixedBytes then varint value
  else
    let little := leBytes 16 value
    let big := beBytes 16 value
    fixed (little.take fixedBytes) (big.drop (16 - fixedBytes))

/-- The 128-bit word of a signed integer. -/
def word128 (value : ℤ) : ℕ := (value % 2 ^ 128).toNat

def signed (value : ℤ) (fixedBytes : ℕ) : EncTo W Unit := do
  let s ← get
  if s.config.integers = .variable ∧ 1 < fixedBytes then varint (zigzagEncode value)
  else
    let little := leBytes 16 (word128 value)
    let big := beBytes 16 (word128 value)
    fixed (little.take fixedBytes) (big.drop (16 - fixedBytes))

/-- Writes a length payload; a length always fits a `u64` on a 64-bit target. -/
def length (len : ℕ) : EncTo W Unit := do
  if len ≤ u64Max then unsigned len 8 else fail (.integerOverflow "u64")

def writeStrValue (value : String) : EncTo W Unit := do
  emitTag tagString
  length (toUtf8 value).length
  orFail (emit (toUtf8 value))

end Numbers

/-! ## Containers -/

def enterContainer (tag : UInt8) : EncTo W Unit := do
  let s ← get
  if s.config.depthLimit ≤ s.depth then fail (.custom "encoder nesting depth limit exceeded")
  else do
    emitTag tag
    modify fun s => { s with depth := s.depth + 1 }

def countElement : EncTo W Unit := do
  let s ← get
  match s.depth with
  | 0 => fail (.custom "container element outside any container")
  | index + 1 =>
      if h : index < maxDepth then do
        let count ← orFail (okOr (checkedAdd s.counts[index] 1) (.collectionLimit u64Max))
        orFail (atMost s.config.collectionLimit count .collectionLimit)
        modify fun s => { s with counts := s.counts.set index count h }
      else panic

def exitContainer : EncTo W Unit := do
  let s ← get
  match s.depth with
  | 0 => fail (.custom "container end without matching start")
  | d + 1 =>
      if h : d < maxDepth then do
        modify fun s => { s with depth := d, counts := s.counts.set d 0 h }
        emitTag tagEnd
      else panic

/-! ## The methods of `FormatEncoder` -/

/-- `is_finite`, on the bits of an `f64`. -/
def isFinite64 (bits : ℕ) : Bool := bits / 2 ^ 52 % 2 ^ 11 != 2 ^ 11 - 1

/-- `is_finite`, on the bits of an `f32`. -/
def isFinite32 (bits : ℕ) : Bool := bits / 2 ^ 23 % 2 ^ 8 != 2 ^ 8 - 1

def beginArray : EncTo W Unit := enterContainer tagArray

def separator : EncTo W Unit := countElement

def endArray : EncTo W Unit := exitContainer

def beginObject : EncTo W Unit := enterContainer tagObject

def endObject : EncTo W Unit := exitContainer

def writeNull : EncTo W Unit := emitTag tagNull

def writeBool (value : Bool) : EncTo W Unit := emitTag (if value then tagTrue else tagFalse)

section Methods

variable [Target]

def key (text : String) : EncTo W Unit := do
  countElement
  writeStrValue text

def writeU64 (value : ℕ) : EncTo W Unit := do
  emitTag tagU64
  unsigned value 8

def writeU128 (value : ℕ) : EncTo W Unit := do
  emitTag tagU128
  unsigned value 16

def writeI64 (value : ℤ) : EncTo W Unit := do
  emitTag tagI64
  signed value 8

def writeI128 (value : ℤ) : EncTo W Unit := do
  emitTag tagI128
  signed value 16

def writeF64 (bits : ℕ) : EncTo W Unit := do
  if isFinite64 bits then
    emitTag tagF64
    fixed (leBytes 8 bits) (beBytes 8 bits)
  else fail .nonFiniteFloat

def writeF32 (bits : ℕ) : EncTo W Unit := do
  if isFinite32 bits then
    emitTag tagF32
    fixed (leBytes 4 bits) (beBytes 4 bits)
  else fail .nonFiniteFloat

def writeStr (value : String) : EncTo W Unit := writeStrValue value

/-- The UTF-8 of a character is that of the string that has only this character. -/
def writeChar (value : Char) : EncTo W Unit := writeStrValue (String.singleton value)

end Methods

end Encoder

/-! ## Driving the encoder -/

/-- The scalars of the event contract. -/
inductive Scalar where
  | null
  | bool (value : Bool)
  | u64 (value : ℕ) (fits : value < 2 ^ 64)
  | u128 (value : ℕ) (fits : value < 2 ^ 128)
  | i64 (value : ℤ) (low : -2 ^ 63 ≤ value) (high : value < 2 ^ 63)
  | i128 (value : ℤ) (low : -2 ^ 127 ≤ value) (high : value < 2 ^ 127)
  | f64 (bits : ℕ) (fits : bits < 2 ^ 64)
  | f32 (bits : ℕ) (fits : bits < 2 ^ 32)
  | str (value : String)
  | char (value : Char)

variable [Target] {W : Type} [EncodeWriter W]

open Encoder in
/-- The method that writes a scalar. -/
def Scalar.write : Scalar → EncTo W Unit
  | null => writeNull
  | bool value => writeBool value
  | u64 value _ => writeU64 value
  | u128 value _ => writeU128 value
  | i64 value _ _ => writeI64 value
  | i128 value _ _ => writeI128 value
  | f64 bits _ => writeF64 bits
  | f32 bits _ => writeF32 bits
  | str value => writeStr value
  | char value => writeChar value

namespace Encoder

def beginContainer : Kind → EncTo W Unit
  | .array => beginArray
  | .object => beginObject

def endContainer : Kind → EncTo W Unit
  | .array => endArray
  | .object => endObject

/-- What is called in front of an entry. -/
def beginEntry : {kind : Kind} → KeyOf String kind → EncTo W Unit
  | .array, _ => separator
  | .object, text => key text

mutual

/-- Writes one value. -/
def writeValue : Tree Scalar String → EncTo W Unit
  | .scalar value => value.write
  | .node kind entries => do
      beginContainer kind
      writeEntries entries
      endContainer kind

def writeEntries {kind : Kind} : Forest Scalar String kind → EncTo W Unit
  | .nil => pure ()
  | .cons key value rest => do
      beginEntry key
      writeValue value
      writeEntries rest

end

end Encoder

end RustBinary.Native
