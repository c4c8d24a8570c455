import RustBinary.Archive.Mirror
import RustBinary.Lib.Bytes

/-!
# The accessors of the mirror

What `RelPtr`, `ArchivedString` and `ArchivedVec` read, as positions in the payload: the addresses
are those of a payload at an address that every alignment divides.
-/

namespace RustBinary.Archive

open Lib

/-- `RelPtr::resolve`, for the pointer at the address `field`. -/
def resolve (bytes : List UInt8) (field : ℕ) : Option ℕ := do
  let word ← slice bytes field (field + 4)
  -- the distance is read as an `i32`
  if leNat word < 2 ^ 31 then some (field + leNat word) else none

/-- The length or the count in front of a body. -/
def bodyCount (bytes : List UInt8) (data : ℕ) : Option ℕ := do
  let word ← slice bytes data (data + 4)
  some (leNat word)

/-- `as_bytes` of an archived string. -/
def readString (bytes : List UInt8) (field : ℕ) : Option (List UInt8) := do
  let data ← resolve bytes field
  let len ← bodyCount bytes data
  slice bytes (data + 4) (data + 4 + len)

/-- `as_slice`: the address of the elements and their number. -/
def readVec (bytes : List UInt8) (align field : ℕ) : Option (ℕ × ℕ) := do
  let data ← resolve bytes field
  let count ← bodyCount bytes data
  some (roundUp (data + 4) align, count)

end RustBinary.Archive
