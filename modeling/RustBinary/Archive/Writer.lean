import RustBinary.Archive.Mirror
import RustBinary.Lib.Bytes
import RustBinary.Lib.Outcome

/-!
# The two-phase archive writer

`ArchiveSerializer` and what the `Serialize` derive generates: the skeleton phase writes the
scalars and reserves the pointers, whose positions it puts into a queue; the bodies phase takes
the positions out of the queue, writes what is behind the pointers and patches them.
-/

namespace RustBinary.Archive

open Lib Lib.Outcome

/-- The serializer, with the queue of positions. -/
structure Writer where
  bytes : List UInt8
  positions : List ℕ
deriving DecidableEq, Repr

namespace Writer

/-- `ArchiveSerializer::new` and `begin`, and an empty queue. -/
def new : Writer := ⟨[], []⟩

/-- The length of the output. -/
def len (w : Writer) : ℕ := w.bytes.length

/-- `extend_from_slice` and `push`. -/
def write (bytes : List UInt8) (w : Writer) : Writer := { w with bytes := w.bytes ++ bytes }

/-- `align_to`. -/
def alignTo (align : ℕ) (w : Writer) : Writer :=
  let remainder := w.bytes.length % align
  if remainder ≠ 0 then w.write (List.replicate (align - remainder) 0) else w

/-- `positions.push_back(serializer.reserve_ptr())`. -/
def reservePtr (w : Writer) : Writer :=
  { bytes := w.bytes ++ List.replicate 4 0, positions := w.positions ++ [w.bytes.length] }

/-- `positions.pop_front()`. -/
def popFront (e : String) (w : Writer) : Outcome String (ℕ × Writer) :=
  match w.positions with
  | [] => .err e
  | pos :: positions => .ok (pos, { w with positions := positions })

/-- `patch_ptr`: the distance, as a 32-bit word. -/
def patchPtr (fieldPos dataPos : ℕ) (w : Writer) : Outcome String Writer :=
  if fieldPos + 4 ≤ w.bytes.length then
    .ok { w with bytes := w.bytes.take fieldPos ++
      (leBytes 4 (((dataPos : ℤ) - fieldPos) % 2 ^ 32).toNat ++ w.bytes.drop (fieldPos + 4)) }
  else .panic

/-- `u32::try_from(len).unwrap_or(u32::MAX)`, as bytes. -/
def countBytes (count : ℕ) : List UInt8 := leBytes 4 (min count (2 ^ 32 - 1))

/-- `write_string_at`. -/
def writeStringAt (fieldPos : ℕ) (value : List UInt8) (w : Writer) : Outcome String Writer :=
  let dataPos := w.bytes.length
  ((w.write (countBytes value.length)).write value).patchPtr fieldPos dataPos

/-- `write_vec_at`: the count, padding, and the elements. -/
def writeVecAt (fieldPos align : ℕ) (elements : List (List UInt8)) (w : Writer) :
    Outcome String Writer :=
  let dataPos := w.bytes.length
  let w := w.write (countBytes elements.length)
  let elementsPos := roundUp (dataPos + 4) align
  let w := w.write (List.replicate (elementsPos - w.bytes.length) 0)
  (w.write elements.flatten).patchPtr fieldPos dataPos

end Writer

variable {env : ℕ → Fields}

/-! ## The skeleton phase -/

/-- `write_skeleton`. -/
def Record.writeSkeleton {fs : Fields} : Record env fs → Writer → Writer
  | .nil, w => w
  | @Record.scalar _ s _ bytes tail, w =>
      tail.writeSkeleton ((w.alignTo s.size).write bytes.toList)
  | .pointer _ tail, w => tail.writeSkeleton (w.alignTo ptrSize).reservePtr
  | @Record.nested _ inner _ head tail, w =>
      tail.writeSkeleton (head.writeSkeleton (w.alignTo inner.align))

/-- The skeletons of the elements of a `Vec`. -/
def Elements.writeSkeletons {fs : Fields} : Elements env fs → Writer → Writer
  | .nil, w => w
  | .cons head tail, w => tail.writeSkeletons (head.writeSkeleton w)

/-! ## The bodies phase -/

/-- What a missing position is reported as. -/
def Pointer.missing : Pointer → String
  | string => "archive: missing string body position"
  | vecScalar _ => "archive: missing vec body position"
  | vecStruct _ => "archive: missing vec body position"

mutual

/-- `write_bodies`. -/
def Record.writeBodies {fs : Fields} : Record env fs → Writer → Outcome String Writer
  | .nil, w => .ok w
  | .scalar _ tail, w => tail.writeBodies w
  | @Record.pointer _ p _ body tail, w => do
      let (fieldPos, w) ← w.popFront p.missing
      let w ← body.writeAt fieldPos w
      tail.writeBodies w
  | .nested head tail, w => do
      let w ← head.writeBodies w
      tail.writeBodies w

/-- The body behind the pointer at `fieldPos`. -/
def Body.writeAt {p : Pointer} : Body env p → ℕ → Writer → Outcome String Writer
  | .string text, fieldPos, w => w.writeStringAt fieldPos (toUtf8 text)
  | @Body.vecScalar _ s elements, fieldPos, w =>
      w.writeVecAt fieldPos s.size (elements.map Vector.toList)
  | @Body.vecStruct _ i elements, fieldPos, w => do
      let dataPos := w.bytes.length
      let w := (w.write (Writer.countBytes elements.length)).alignTo (env i).align
      let w ← elements.writeBodies (elements.writeSkeletons w)
      w.patchPtr fieldPos dataPos

/-- The bodies of the elements of a `Vec`. -/
def Elements.writeBodies {fs : Fields} : Elements env fs → Writer → Outcome String Writer
  | .nil, w => .ok w
  | .cons head tail, w => do
      let w ← head.writeBodies w
      tail.writeBodies w

end

/-- The writer at the end of `to_archive`. -/
def writeArchive {fs : Fields} (value : Record env fs) : Outcome String Writer :=
  value.writeBodies (value.writeSkeleton Writer.new)

/-- `to_archive`. -/
def toArchive {fs : Fields} (value : Record env fs) : Outcome String (List UInt8) := do
  let w ← writeArchive value
  pure w.bytes

end RustBinary.Archive
