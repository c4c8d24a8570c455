import RustBinary.Cbor.Decoder

/-!
# CBOR data items

The data items of the supported model, with every choice that an encoder has: the width of
each argument, the chunks of a string and, container by container, definite or indefinite
framing.  An item also says how it is read: a null through `unit` (`Item.null`) or through
`option_tag` (`Item.none`), any other item with an `option_tag` before it (`Item.some`).

* `Item.encode`: the bytes of the item;
* `Item.calls`: the calls that read it, which do not depend on the choices of the encoder;
* `Item.rets`: the answers they get from a decoder that reads the item, likewise.

Array elements and object entries are one type, `Elements kind`: an entry has a text as its
key, an element has none.
-/

namespace RustBinary.Cbor

open Lib

/-! ## Heads -/

/-- Where the argument of a head is: in the first byte, or in 1, 2, 4 or 8 bytes after it. -/
inductive Width where
  | immediate
  | one
  | two
  | four
  | eight
deriving DecidableEq, Repr

/-- The arguments below `bound` can be written in the width. -/
def Width.bound : Width → ℕ
  | immediate => 24
  | one => 2 ^ 8
  | two => 2 ^ 16
  | four => 2 ^ 32
  | eight => 2 ^ 64

/-- The head of major type `major` with argument `n`. -/
def head (major : ℕ) (width : Width) (n : ℕ) : List UInt8 :=
  match width with
  | .immediate => [UInt8.ofNat (2 ^ 5 * major + n)]
  | .one => UInt8.ofNat (2 ^ 5 * major + 24) :: beBytes 1 n
  | .two => UInt8.ofNat (2 ^ 5 * major + 25) :: beBytes 2 n
  | .four => UInt8.ofNat (2 ^ 5 * major + 26) :: beBytes 4 n
  | .eight => UInt8.ofNat (2 ^ 5 * major + 27) :: beBytes 8 n

/-- The head of an item of indefinite length. -/
def openHead (major : ℕ) : List UInt8 := [UInt8.ofNat (2 ^ 5 * major + 31)]

lemma head_ne_nil (major : ℕ) (width : Width) (n : ℕ) : head major width n ≠ [] := by
  cases width <;> simp [head]

/-- No head starts with the break byte. -/
lemma head_cons {major : ℕ} (hmajor : major < 7) {width : Width} {n : ℕ} (hn : n < width.bound) :
    ∃ byte bs, head major width n = byte :: bs ∧ byte.toNat / 2 ^ 5 = major := by
  cases width with
  | immediate =>
      have hlt : n < 24 := hn
      refine ⟨_, _, rfl, ?_⟩
      rw [UInt8.toNat_ofNat']
      omega
  | one | two | four | eight =>
      refine ⟨_, _, rfl, ?_⟩
      rw [UInt8.toNat_ofNat']
      omega

/-! ## Strings and numbers -/

structure Argument where
  value : ℕ
  width : Width
  fits : value < width.bound

/-- A string of definite length. -/
structure Chunk where
  bytes : List UInt8
  width : Width
  fits : bytes.length < width.bound

def Chunk.encode (major : ℕ) (chunk : Chunk) : List UInt8 :=
  head major chunk.width chunk.bytes.length ++ chunk.bytes

/-- A string, in one piece or in chunks. -/
inductive ByteString where
  | definite (chunk : Chunk)
  | chunked (chunks : List Chunk)

namespace ByteString

def content : ByteString → List UInt8
  | definite chunk => chunk.bytes
  | chunked chunks => chunks.flatMap Chunk.bytes

def encode (major : ℕ) : ByteString → List UInt8
  | definite chunk => chunk.encode major
  | chunked chunks => openHead major ++ (chunks.flatMap (Chunk.encode major) ++ [0xff])

end ByteString

/-- A string whose content is the UTF-8 of a text. -/
structure Text where
  value : String
  form : ByteString
  content_eq : form.content = toUtf8 value

inductive Numeral where
  | unsigned (argument : Argument)
  | negative (argument : Argument)
  | bignum (negative : Bool) (tag : Width) (payload : Chunk) (short : payload.bytes.length ≤ 16)
  | half (bits : ℕ) (fits : bits < 2 ^ 16)
  | single (bits : ℕ) (fits : bits < 2 ^ 32)
  | double (bits : ℕ) (fits : bits < 2 ^ 64)

namespace Numeral

def encode : Numeral → List UInt8
  | unsigned a => head 0 a.width a.value
  | negative a => head 1 a.width a.value
  | bignum false tag payload _ => head 6 tag 2 ++ payload.encode 2
  | bignum true tag payload _ => head 6 tag 3 ++ payload.encode 2
  | half bits _ => 0xf9 :: beBytes 2 bits
  | single bits _ => 0xfa :: beBytes 4 bits
  | double bits _ => 0xfb :: beBytes 8 bits

def value : Numeral → Number
  | unsigned a => .u64 a.value
  | negative a =>
      if a.value ≤ 2 ^ 63 - 1 then .i64 (-1 - (a.value : ℤ)) else .i128 (-1 - (a.value : ℤ))
  | bignum false _ payload _ => .u128 (beNat payload.bytes)
  | bignum true _ payload _ => .i128 (-1 - asI128 (beNat payload.bytes))
  | half bits _ => .f64 (halfToF64 bits)
  | single bits _ => .f64 (f32ToF64 bits)
  | double bits _ => .f64 bits

end Numeral

/-! ## Items -/

/-- How the length of a container is given: in its head, or by a break after it. -/
inductive Framing where
  | definite (width : Width)
  | indefinite
deriving DecidableEq, Repr

/-- What stands before a value in a container. -/
def KeyOf : ContainerKind → Type
  | .array => Unit
  | .object => Text

mutual

inductive Item where
  | null
  | none
  | some (item : Item)
  | bool (value : Bool)
  | number (value : Numeral)
  | text (value : Text)
  | bytes (value : ByteString)
  | container (kind : ContainerKind) (framing : Framing) (elements : Elements kind)

inductive Elements : ContainerKind → Type where
  | nil {kind : ContainerKind} : Elements kind
  | cons {kind : ContainerKind} (key : KeyOf kind) (item : Item) (rest : Elements kind) :
      Elements kind

end

def ContainerKind.major : ContainerKind → ℕ
  | .array => 4
  | .object => 5

/-- The token of the head of a container. -/
def ContainerKind.token : ContainerKind → Token
  | .array => .beginArray
  | .object => .beginObject

def Elements.length {kind : ContainerKind} : Elements kind → ℕ
  | .nil => 0
  | .cons _ _ rest => rest.length + 1

/-- The bytes of a key. -/
def keyBytes : {kind : ContainerKind} → KeyOf kind → List UInt8
  | .array, _ => []
  | .object, key => Text.form key |>.encode 3

/-- The head of a container of `n` elements. -/
def Framing.openBytes (framing : Framing) (kind : ContainerKind) (n : ℕ) : List UInt8 :=
  match framing with
  | definite width => head kind.major width n
  | indefinite => openHead kind.major

def Framing.closeBytes : Framing → List UInt8
  | definite _ => []
  | indefinite => [0xff]

mutual

def Item.encode : Item → List UInt8
  | .null => [0xf6]
  | .none => [0xf6]
  | .some item => item.encode
  | .bool false => [0xf4]
  | .bool true => [0xf5]
  | .number value => value.encode
  | .text value => value.form.encode 3
  | .bytes value => value.encode 2
  | .container kind framing elements =>
      framing.openBytes kind elements.length ++ (elements.encode ++ framing.closeBytes)

def Elements.encode {kind : ContainerKind} : Elements kind → List UInt8
  | .nil => []
  | .cons key item rest => keyBytes key ++ (item.encode ++ rest.encode)

end

/-! ## Reading an item -/

/-- The call that reads a key. -/
def keyCalls : {kind : ContainerKind} → KeyOf kind → List CborCall
  | .array, _ => []
  | .object, _ => [.required .objectKey]

def keyRets : {kind : ContainerKind} → KeyOf kind → List Answer
  | .array, _ => []
  | .object, key => [.key (some (Text.value key))]

/-- The call that opens a container, and for an array the question whether it has elements;
an object without entries answers that by having no first key. -/
def openCalls : ContainerKind → ℕ → List CborCall
  | .array, _ => [.required .beginArray, .required .arrayHasMore]
  | .object, 0 => [.required .beginObject, .required .objectKey]
  | .object, _ + 1 => [.required .beginObject]

def openRets : ContainerKind → ℕ → List Answer
  | .array, n => [.unit, .bool (n != 0)]
  | .object, 0 => [.unit, .key none]
  | .object, _ + 1 => [.unit]

def sepCall : ContainerKind → CborCall
  | .array => .required .arrayEntrySep
  | .object => .required .objectEntrySep

def closeCall : ContainerKind → CborCall
  | .array => .required .endArray
  | .object => .required .endObject

mutual

def Item.calls : Item → List CborCall
  | .null => [.required .unit]
  | .none => [.optionTag]
  | .some item => .optionTag :: item.calls
  | .bool _ => [.required .bool]
  | .number _ => [.required .number]
  | .text _ => [.required .string]
  | .bytes _ => [.bytes]
  | .container kind _ elements =>
      openCalls kind elements.length ++ (elements.calls ++ [closeCall kind])

def Elements.calls {kind : ContainerKind} : Elements kind → List CborCall
  | .nil => []
  | .cons key item rest => keyCalls key ++ (item.calls ++ sepCall kind :: rest.calls)

end

mutual

def Item.rets : Item → List Answer
  | .null => [.unit]
  | .none => [.optionTag .none]
  | .some item => .optionTag .some :: item.rets
  | .bool value => [.bool value]
  | .number value => [.number value.value]
  | .text value => [.string value.value]
  | .bytes value => [.bytes value.content]
  | .container kind _ elements =>
      openRets kind elements.length ++ (elements.rets false ++ [.unit])

/-- The answers to the calls that read the elements; a separator answers whether there is
another element, and the last one answers `last`. -/
def Elements.rets {kind : ContainerKind} (last : Bool) : Elements kind → List Answer
  | .nil => []
  | .cons key item rest =>
      keyRets key ++ (item.rets ++ .bool (rest.length != 0 || last) :: rest.rets last)

end

end RustBinary.Cbor
