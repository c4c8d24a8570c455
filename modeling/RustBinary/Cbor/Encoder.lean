import RustBinary.Native.Encoder
import RustBinary.Cbor.Item

/-!
# The CBOR encoder

The streaming RFC 8949 encoder, method by method, over a sink of bytes.  It counts the bytes
that it has written against the byte limit, and for each depth the elements of the open
container.  Heads are the shortest ones, containers have indefinite length, and integers
beyond 64 bits are bignums.

`writeTree` is a caller that drives it over a value: one `separator` call for each element of
an array and one `key` call for each entry of an object.
-/

namespace RustBinary.Cbor

open Lib Lib.Act Native

/-- `CborEncoder<W>`. -/
structure CborEncoder (W : Type) where
  writer : W
  config : Config
  written : ℕ
  depth : ℕ
  counts : Vector ℕ maxDepth
  wireError : Option Error

/-- An action of the encoder behind the `FormatEncoder` boundary. -/
abbrev Enc (W α : Type) : Type := Act (CborEncoder W) NextjsonError α

namespace CborEncoder

variable {W : Type}

def new (writer : W) (config : Config) : CborEncoder W where
  writer := writer
  config := config
  written := 0
  depth := 0
  counts := Vector.replicate maxDepth 0
  wireError := none

/-! ## Writing bytes -/

/-- `Err(self.fail(error))`. -/
def fail {α : Type} (error : Error) : Enc W α := do
  modify fun s => { s with wireError := some error }
  throw (.custom "rustbinary cbor wire error")

/-- `.map_err(|error| self.fail(error))?`. -/
def orFail {α : Type} (m : Act (CborEncoder W) Error α) : Enc W α := onErr m fail

variable [EncodeWriter W]

/-- The sink takes the bytes, and then they count. -/
def writeCounted (bytes : List UInt8) (next : ℕ) : Act (CborEncoder W) Error Unit := fun s =>
  match EncodeWriter.writeAll bytes s.writer with
  | (.ok (), writer) => (.ok (), { s with writer := writer, written := next })
  | (.err e, writer) => (.err e, { s with writer := writer })
  | (.panic, writer) => (.panic, { s with writer := writer })
  | (.diverge, writer) => (.diverge, { s with writer := writer })

def emit (bytes : List UInt8) : Act (CborEncoder W) Error Unit := do
  let s ← get
  let next ← okOr (checkedAdd s.written bytes.length) (.sizeLimit u64Max)
  atMost s.config.limit next .sizeLimit
  writeCounted bytes next

/-! ## Heads -/

/-- The bytes that `head` emits: the shortest head for the argument. -/
def headBytes (major : UInt8) (argument : ℕ) : List UInt8 :=
  let leading := major <<< 5
  if argument < 24 then [leading ||| UInt8.ofNat argument]
  else if argument ≤ 0xff then [leading ||| 24, UInt8.ofNat argument]
  else if argument ≤ 0xffff then (leading ||| 25) :: beBytes 2 argument
  else if argument ≤ 0xffffffff then (leading ||| 26) :: beBytes 4 argument
  else (leading ||| 27) :: beBytes 8 argument

def head (major : UInt8) (argument : ℕ) : Enc W Unit :=
  orFail (emit (headBytes major argument))

/-- The bytes of a magnitude from the first one that is not zero, or else the last one. -/
def magnitude (value : ℕ) : List UInt8 :=
  let bytes := beBytes 16 value
  bytes.drop ((bytes.findIdx? (· != 0)).getD (bytes.length - 1))

def bignum (tag value : ℕ) : Enc W Unit := do
  head 6 tag
  head 2 (magnitude value).length
  orFail (emit (magnitude value))

def unsigned (value : ℕ) : Enc W Unit :=
  if value ≤ u64Max then head 0 value else bignum 2 value

def signed (value : ℤ) : Enc W Unit :=
  if 0 ≤ value then unsigned value.toNat
  else
    let argument := (-1 - value).toNat
    if argument ≤ u64Max then head 1 argument else bignum 3 argument

def writeText (value : String) : Enc W Unit := do
  head 3 (toUtf8 value).length
  orFail (emit (toUtf8 value))

/-! ## Containers -/

def enterContainer : Enc W Unit := do
  let s ← get
  if maxDepth ≤ s.depth then fail (.custom "encoder nesting depth limit exceeded")
  else modify fun s => { s with depth := s.depth + 1 }

def exitContainer : Enc W Unit := do
  let s ← get
  match s.depth with
  | 0 => fail (.custom "container end without matching start")
  | d + 1 =>
      if h : d < maxDepth then do
        modify fun s => { s with depth := d, counts := s.counts.set d 0 h }
        orFail (emit [0xff])
      else panic

def countElement : Enc W Unit := do
  let s ← get
  match s.depth with
  | 0 => fail (.custom "element outside any container")
  | index + 1 =>
      if h : index < maxDepth then do
        let count ← orFail (okOr (checkedAdd s.counts[index] 1) (.collectionLimit u64Max))
        orFail (atMost s.config.collectionLimit count .collectionLimit)
        modify fun s => { s with counts := s.counts.set index count h }
      else panic

/-! ## The methods of `FormatEncoder` -/

def beginArray : Enc W Unit := do
  enterContainer
  orFail (emit [0x9f])

def separator : Enc W Unit := countElement

def endArray : Enc W Unit := exitContainer

def beginObject : Enc W Unit := do
  enterContainer
  orFail (emit [0xbf])

def key (text : String) : Enc W Unit := do
  countElement
  writeText text

def endObject : Enc W Unit := exitContainer

def writeNull : Enc W Unit := orFail (emit [0xf6])

def writeBool (value : Bool) : Enc W Unit := orFail (emit [if value then 0xf5 else 0xf4])

def writeStr (value : String) : Enc W Unit := writeText value

/-- The UTF-8 of a character is that of the string that has only this character. -/
def writeChar (value : Char) : Enc W Unit := writeText (String.singleton value)

def writeI64 (value : ℤ) : Enc W Unit := signed value

def writeU64 (value : ℕ) : Enc W Unit := unsigned value

def writeI128 (value : ℤ) : Enc W Unit := signed value

def writeU128 (value : ℕ) : Enc W Unit := unsigned value

def writeF64 (bits : ℕ) : Enc W Unit := do
  orFail (emit [0xfb])
  orFail (emit (beBytes 8 bits))

def writeF32 (bits : ℕ) : Enc W Unit := do
  orFail (emit [0xfa])
  orFail (emit (beBytes 4 bits))

def writeBytes (value : List UInt8) : Enc W Unit := do
  head 2 value.length
  orFail (emit value)

end CborEncoder

/-! ## Driving the encoder -/

/-- The scalars of the event contract: those of the self-describing wire and byte strings. -/
inductive Leaf where
  | scalar (value : Scalar)
  | bytes (value : List UInt8)

variable {W : Type} [EncodeWriter W]

open CborEncoder in
/-- The method that writes a scalar. -/
def Leaf.write : Leaf → Enc W Unit
  | scalar .null => writeNull
  | scalar (.bool value) => writeBool value
  | scalar (.u64 value _) => writeU64 value
  | scalar (.u128 value _) => writeU128 value
  | scalar (.i64 value _ _) => writeI64 value
  | scalar (.i128 value _ _) => writeI128 value
  | scalar (.f64 bits _) => writeF64 bits
  | scalar (.f32 bits _) => writeF32 bits
  | scalar (.str value) => writeStr value
  | scalar (.char value) => writeChar value
  | bytes value => writeBytes value

namespace CborEncoder

def beginContainer : Kind → Enc W Unit
  | .array => beginArray
  | .object => beginObject

def endContainer : Kind → Enc W Unit
  | .array => endArray
  | .object => endObject

/-- What is called in front of an entry. -/
def beginEntry : {kind : Kind} → Lib.KeyOf String kind → Enc W Unit
  | .array, _ => separator
  | .object, text => key text

mutual

/-- Writes one value. -/
def writeTree : Tree Leaf String → Enc W Unit
  | .scalar value => value.write
  | .node kind entries => do
      beginContainer kind
      writeForest entries
      endContainer kind

def writeForest {kind : Kind} : Forest Leaf String kind → Enc W Unit
  | .nil => pure ()
  | .cons key value rest => do
      beginEntry key
      writeTree value
      writeForest rest

end

/-- `finish` of a value, and the encoder that it leaves. -/
def finish (fromNextjson : NextjsonError → Error) (value : Tree Leaf String) (s : CborEncoder W) :
    Outcome Error ℕ × CborEncoder W :=
  match writeTree value s with
  | (.ok _, t) =>
      (if t.depth ≠ 0 then .err (.custom "encoder finished inside an unclosed container")
      else .ok t.written, t)
  | (.err e, t) => (.err (t.wireError.getD (fromNextjson e)), { t with wireError := none })
  | (.panic, t) => (.panic, t)
  | (.diverge, t) => (.diverge, t)

end CborEncoder

end RustBinary.Cbor
