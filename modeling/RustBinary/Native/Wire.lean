import RustBinary.Lib.Tree
import RustBinary.Core.Varint
import RustBinary.Native.Decoder

/-!
# The self-describing wire

What the bytes of a value are, apart from how a program writes or reads them: a scalar is a tag
and a payload, a container is a tag, its entries and the terminator.  `Fits` says that a payload
has room for what it is to hold.

A wire value need not be one that a decoder accepts: the payload of an integer may be out of the
range of its tag, and the bytes of a string need not be UTF-8.  `WireScalar.token` is what a
scalar stands for, if it stands for something.
-/

namespace RustBinary.Native

open Lib Decoder

variable [Target]

/-! ## Integers -/

/-- The `width` low bytes of a number, in the byte order of the configuration. -/
def toBytes (c : Config) (width n : ℕ) : List UInt8 :=
  if c.endian.isLittle then leBytes width n else beBytes width n

/-- The canonical varint of a number. -/
def spellVarint (c : Config) (n : ℕ) : List UInt8 :=
  if n ≤ 250 then [UInt8.ofNat n]
  else if n ≤ 0xffff then markerU16 :: toBytes c 2 n
  else if n ≤ 0xffffffff then markerU32 :: toBytes c 4 n
  else if n ≤ 0xffffffffffffffff then markerU64 :: toBytes c 8 n
  else markerU128 :: toBytes c 16 n

/-- The payload of an integer of `width` bytes. -/
def spellInt (c : Config) (width word : ℕ) : List UInt8 :=
  if c.integers = .variable ∧ 1 < width then spellVarint c word else toBytes c width word

/-- The payload of an integer of `width` bytes has room for `word`. -/
def IsWord (c : Config) (width word : ℕ) : Prop :=
  word < if c.integers = .variable ∧ 1 < width then 2 ^ 128 else 256 ^ width

@[simp] lemma length_toBytes (c : Config) (width n : ℕ) : (toBytes c width n).length = width := by
  rw [toBytes]
  split <;> simp

lemma fromBytes_toBytes {c : Config} {width n : ℕ} (h : n < 256 ^ width) :
    fromBytes c (toBytes c width n) = n := by
  rw [fromBytes, toBytes]
  split
  · exact leNat_leBytes h
  · exact beNat_beBytes h

lemma toBytes_fromBytes (c : Config) (bytes : List UInt8) :
    toBytes c bytes.length (fromBytes c bytes) = bytes := by
  rw [fromBytes, toBytes]
  split
  · exact leBytes_leNat bytes
  · exact beBytes_beNat bytes

lemma fromBytes_lt (c : Config) (bytes : List UInt8) : fromBytes c bytes < 256 ^ bytes.length := by
  rw [fromBytes]
  split
  · exact leNat_lt bytes
  · exact beNat_lt bytes

/-! ## Scalars -/

/-- The tags of the integers. -/
inductive IntTag where
  | u64
  | u128
  | i64
  | i128
deriving DecidableEq, Repr

namespace IntTag

def tag : IntTag → UInt8
  | u64 => tagU64
  | u128 => tagU128
  | i64 => tagI64
  | i128 => tagI128

def width : IntTag → ℕ
  | u64 | i64 => 8
  | u128 | i128 => 16

end IntTag

/-- The signed integer that a word of `width` bytes stands for. -/
def signedWord (c : Config) (width word : ℕ) : ℤ :=
  if c.integers = .variable ∧ 1 < width then zigzagDecode word
  else asI128 (widen c (signFill c (toBytes c width word)) (toBytes c width word))

/-- What a word stands for under its tag. -/
def IntTag.number (c : Config) : IntTag → ℕ → Option Number
  | u64, word => if word ≤ 2 ^ 64 - 1 then some (.u64 word) else none
  | u128, word => if word ≤ 2 ^ 128 - 1 then some (.u128 word) else none
  | i64, word =>
      if -2 ^ 63 ≤ signedWord c 8 word ∧ signedWord c 8 word ≤ 2 ^ 63 - 1 then
        some (.i64 (signedWord c 8 word))
      else none
  | i128, word =>
      if -2 ^ 127 ≤ signedWord c 16 word ∧ signedWord c 16 word ≤ 2 ^ 127 - 1 then
        some (.i128 (signedWord c 16 word))
      else none

inductive WireScalar where
  | null
  | bool (value : Bool)
  | int (tag : IntTag) (word : ℕ)
  | f64 (bits : ℕ)
  | f32 (bits : ℕ)
  | str (bytes : List UInt8)
deriving DecidableEq, Repr

/-- A length and as many bytes. -/
def spellStr (c : Config) (bytes : List UInt8) : List UInt8 := spellInt c 8 bytes.length ++ bytes

namespace WireScalar

def Fits (c : Config) : WireScalar → Prop
  | null => True
  | bool _ => True
  | int tag word => IsWord c tag.width word
  | f64 bits => bits < 2 ^ 64
  | f32 bits => bits < 2 ^ 32
  | str bytes => bytes.length < 2 ^ 64

def spell (c : Config) : WireScalar → List UInt8
  | null => [tagNull]
  | bool false => [tagFalse]
  | bool true => [tagTrue]
  | int tag word => tag.tag :: spellInt c tag.width word
  | f64 bits => tagF64 :: toBytes c 8 bits
  | f32 bits => tagF32 :: toBytes c 4 bits
  | str bytes => tagString :: spellStr c bytes

/-- The token that a decoder makes of a scalar. -/
def token (c : Config) : WireScalar → Option Token
  | null => some .null
  | bool value => some (.bool value)
  | int tag word => (tag.number c word).map .number
  | f64 bits => some (.number (.f64 bits))
  | f32 bits => some (.number (.f64 (f32ToF64 bits)))
  | str bytes => (fromUtf8 bytes).map .str

end WireScalar

/-! ## Values -/

/-- A value on the wire; its keys are bytes. -/
abbrev WireValue : Type := Tree WireScalar (List UInt8)

abbrev WireEntries (kind : Kind) : Type := Forest WireScalar (List UInt8) kind

/-- The tag of a container. -/
def kindTag : Kind → UInt8
  | .array => tagArray
  | .object => tagObject

/-- The token of the tag of a container. -/
def kindToken : Kind → Token
  | .array => .beginArray
  | .object => .beginObject

def spellKey (c : Config) : {kind : Kind} → KeyOf (List UInt8) kind → List UInt8
  | .array, _ => []
  | .object, key => tagString :: spellStr c key

mutual

def spellValue (c : Config) : WireValue → List UInt8
  | .scalar value => value.spell c
  | .node kind entries => kindTag kind :: (spellEntries c entries ++ [tagEnd])

def spellEntries (c : Config) {kind : Kind} : WireEntries kind → List UInt8
  | .nil => []
  | .cons key value rest => spellKey c key ++ (spellValue c value ++ spellEntries c rest)

end

/-- Every payload of the value has room for what it holds. -/
def Fits (c : Config) (value : WireValue) : Prop :=
  value.All (WireScalar.Fits c) fun key => key.length < 2 ^ 64

/-- The value that a decoder makes of a value on the wire. -/
def decodeValue (c : Config) (value : WireValue) : Option (Tree Token String) :=
  value.mapOption (WireScalar.token c) fromUtf8

end RustBinary.Native
