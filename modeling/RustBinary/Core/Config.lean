import Mathlib.Algebra.Order.Ring.Nat

/-!
# Configuration, wire constants and errors

The resource policies that every profile of the codec shares, the tags and markers of the
self-describing wire, and the errors of the functions that are modelled here.

Sizes, cursors and limits are natural numbers: the 64-bit bounds of the code appear where
the code checks them (`checkedAdd`).
-/

namespace RustBinary

/-- The largest value of a `u64`, and of a `usize` on a 64-bit target. -/
def u64Max : ℕ := 2 ^ 64 - 1

/-- `checked_add` on `usize` and `u64`. -/
def checkedAdd (a b : ℕ) : Option ℕ := if a + b ≤ u64Max then some (a + b) else none

lemma checkedAdd_eq_some {a b c : ℕ} (h : checkedAdd a b = some c) : c = a + b := by
  rw [checkedAdd] at h
  split at h
  · exact (Option.some.inj h).symm
  · cases h

/-- `saturating_add` on `usize`. -/
def saturatingAdd (a b : ℕ) : ℕ := min (a + b) u64Max

/-- `saturating_mul` on `usize`. -/
def saturatingMul (a b : ℕ) : ℕ := min (a * b) u64Max

/-- `checked_mul` on `usize`. -/
def checkedMul (a b : ℕ) : Option ℕ := if a * b ≤ u64Max then some (a * b) else none

/-- A byte slice: its length is a `usize`. -/
structure Input where
  bytes : List UInt8
  length_le : bytes.length ≤ u64Max

/-- Byte order for fixed-width values and varint payloads. -/
inductive Endian where
  | little
  | big
  | native
deriving DecidableEq, Repr

/-- The compilation target. -/
class Target where
  /-- `cfg!(target_endian = "little")`. -/
  littleEndian : Bool

/-- `Endian::little`. -/
def Endian.isLittle [t : Target] : Endian → Bool
  | .little => true
  | .big => false
  | .native => t.littleEndian

/-- Integer representation used by the codec. -/
inductive IntEncoding where
  | fixed
  | variable
deriving DecidableEq, Repr

/-- Policy for bytes following a decoded top-level value. -/
inductive TrailingBytes where
  | allow
  | reject
deriving DecidableEq, Repr

/-! ## Wire constants -/

/-- `null` (unit / `Option::None`). -/
def tagNull : UInt8 := 0x00
def tagFalse : UInt8 := 0x01
def tagTrue : UInt8 := 0x02
def tagU64 : UInt8 := 0x03
def tagU128 : UInt8 := 0x04
def tagI64 : UInt8 := 0x05
def tagI128 : UInt8 := 0x06
def tagF64 : UInt8 := 0x07
def tagF32 : UInt8 := 0x08
/-- String / char (length + UTF-8). -/
def tagString : UInt8 := 0x09
/-- Array (elements, then `tagEnd`). -/
def tagArray : UInt8 := 0x0a
/-- Object (key + value pairs, then `tagEnd`). -/
def tagObject : UInt8 := 0x0b
/-- End-of-container terminator. -/
def tagEnd : UInt8 := 0xff

def markerU16 : UInt8 := 251
def markerU32 : UInt8 := 252
def markerU64 : UInt8 := 253
def markerU128 : UInt8 := 254

/-- Maximum container nesting depth; it sizes the per-depth counter tables. -/
def maxDepth : ℕ := 128

def defaultSizeLimit : ℕ := 64 * 1024 * 1024

def defaultCollectionLimit : ℕ := 1000000

/-! ## Configuration -/

/-- Copyable configuration describing a complete wire profile.  The fields are private to
the crate and `with_depth_limit` clamps, so the depth cap never exceeds the tables. -/
structure Config where
  endian : Endian
  integers : IntEncoding
  trailing : TrailingBytes
  limit : Option ℕ
  collectionLimit : Option ℕ
  depthLimit : ℕ
  depthLimit_le : depthLimit ≤ maxDepth

namespace Config

/-- `Config::standard`. -/
def standard : Config where
  endian := .little
  integers := .variable
  trailing := .reject
  limit := some defaultSizeLimit
  collectionLimit := some defaultCollectionLimit
  depthLimit := maxDepth
  depthLimit_le := Nat.le_refl _

/-- `Config::legacy`. -/
def legacy : Config where
  endian := .little
  integers := .fixed
  trailing := .allow
  limit := none
  collectionLimit := none
  depthLimit := maxDepth
  depthLimit_le := Nat.le_refl _

/-- `Config::with_limit`: the collection limit is lowered with the byte limit. -/
def withLimit (c : Config) (limit : ℕ) : Config :=
  { c with
    limit := some limit
    collectionLimit := some
      (match c.collectionLimit with
        | some current => if current < limit then current else limit
        | none => limit) }

/-- `Config::with_collection_limit`. -/
def withCollectionLimit (c : Config) (limit : ℕ) : Config :=
  { c with collectionLimit := some limit }

/-- `Config::with_depth_limit`. -/
def withDepthLimit (c : Config) (limit : ℕ) : Config :=
  { c with
    depthLimit := if maxDepth < limit then maxDepth else limit
    depthLimit_le := by split <;> omega }

end Config

/-! ## Errors -/

/-- The failures of the modelled functions (`Error`).  The position data that
`Utf8Error` adds to `InvalidUtf8` is left out. -/
inductive Error where
  | sizeLimit (limit : ℕ)
  | collectionLimit (limit : ℕ)
  | unexpectedEnd
  | trailingBytes (remaining : ℕ)
  | invalidBool (byte : UInt8)
  | invalidChar
  | invalidUtf8
  | integerOverflow (target : String)
  | invalidVarintMarker (marker : UInt8)
  | nonCanonicalVarint
  | nonFiniteFloat
  | invalidFrame (message : String)
  | schemaMismatch (expected actual : ℕ)
  | schemaEvolution (message : String)
  | bufferTooSmall (required available : ℕ)
  | adaptive (message : String)
  | bitPacking (message : String)
  | entropy (message : String)
  | delta (message : String)
  | iblt (message : String)
  | cbor (message : String)
  | custom (message : String)
deriving DecidableEq, Repr

end RustBinary
