import RustBinary.Core.Nextjson
import RustBinary.Lib.Layout

/-!
# Archived types and their mirrors

The fields that the `Archive` and `Serialize` derives accept, the layout of the generated
`#[repr(C)]` mirror, and the values of a type.  A direct nested struct cannot be recursive, so
that its fields stand where it is used; the element struct of a `Vec` can be, and is named by its
number in an environment `env` of structs.

Alignments and sizes are those of a 64-bit target.
-/

namespace RustBinary.Archive

open Lib

/-- The scalar primitives of the archive codec. -/
inductive Scalar where
  | u8
  | u16
  | u32
  | u64
  | i8
  | i16
  | i32
  | i64
  | f32
  | f64
deriving DecidableEq, Repr

/-- `size_of`, which is `align_of` too. -/
def Scalar.size : Scalar → ℕ
  | u8 => 1
  | u16 => 2
  | u32 => 4
  | u64 => 8
  | i8 => 1
  | i16 => 2
  | i32 => 4
  | i64 => 8
  | f32 => 4
  | f64 => 8

lemma Scalar.isAlign_size (s : Scalar) : IsAlign s.size := by
  cases s
  all_goals first
    | exact ⟨0, rfl⟩
    | exact ⟨1, rfl⟩
    | exact ⟨2, rfl⟩
    | exact ⟨3, rfl⟩

/-- What a `RelPtr` field points to. -/
inductive Pointer where
  | string
  | vecScalar (element : Scalar)
  | vecStruct (element : ℕ)
deriving DecidableEq, Repr

/-- The size and the alignment of `RelPtr`, `ArchivedString` and `ArchivedVec`. -/
def ptrSize : ℕ := 4

lemma isAlign_ptrSize : IsAlign ptrSize := ⟨2, rfl⟩

/-- The fields of a struct, in order. -/
inductive Fields where
  | nil
  | scalar (s : Scalar) (rest : Fields)
  | pointer (p : Pointer) (rest : Fields)
  | nested (inner rest : Fields)
deriving DecidableEq, Repr

namespace Fields

/-! ## The layout of the mirror -/

/-- `align_of` of the mirror. -/
def align : Fields → ℕ
  | nil => 1
  | scalar s rest => max s.size rest.align
  | pointer _ rest => max ptrSize rest.align
  | nested inner rest => max inner.align rest.align

/-- The end of the last field, when the fields start at `start`; a nested struct takes its size,
which is its end rounded up to its alignment. -/
def mirrorEnd : Fields → ℕ → ℕ
  | nil, start => start
  | scalar s rest, start => rest.mirrorEnd (roundUp start s.size + s.size)
  | pointer _ rest, start => rest.mirrorEnd (roundUp start ptrSize + ptrSize)
  | nested inner rest, start =>
      rest.mirrorEnd (roundUp start inner.align + roundUp (inner.mirrorEnd 0) inner.align)

/-- `size_of` of the mirror. -/
def size (fs : Fields) : ℕ := roundUp (fs.mirrorEnd 0) fs.align

/-- The addresses of the inline scalars and pointers of a mirror, nested ones included: `base` is
the address of the struct and `offset` the end of the fields in front. -/
def mirrorLeaves : Fields → ℕ → ℕ → List ℕ
  | nil, _, _ => []
  | scalar s rest, base, offset =>
      (base + roundUp offset s.size) :: rest.mirrorLeaves base (roundUp offset s.size + s.size)
  | pointer _ rest, base, offset =>
      (base + roundUp offset ptrSize) :: rest.mirrorLeaves base (roundUp offset ptrSize + ptrSize)
  | nested inner rest, base, offset =>
      inner.mirrorLeaves (base + roundUp offset inner.align) 0 ++
        rest.mirrorLeaves base (roundUp offset inner.align + inner.size)

/-- The number of pointers, nested ones included. -/
def pointers : Fields → ℕ
  | nil => 0
  | scalar _ rest => rest.pointers
  | pointer _ rest => rest.pointers + 1
  | nested inner rest => inner.pointers + rest.pointers

lemma isAlign_align (fs : Fields) : IsAlign fs.align := by
  induction fs with
  | nil => exact ⟨0, rfl⟩
  | scalar s rest ih => exact s.isAlign_size.maximum ih
  | pointer p rest ih => exact isAlign_ptrSize.maximum ih
  | nested inner rest ihi ih => exact ihi.maximum ih

lemma align_pos (fs : Fields) : 0 < fs.align := fs.isAlign_align.pos

lemma align_dvd_size (fs : Fields) : fs.align ∣ fs.size := dvd_roundUp fs.align_pos

end Fields

/-! ## Values -/

mutual

/-- A value of a struct: scalars by their little-endian bytes. -/
inductive Record (env : ℕ → Fields) : Fields → Type where
  | nil : Record env .nil
  | scalar {s rest} (bytes : Vector UInt8 s.size) (tail : Record env rest) :
      Record env (.scalar s rest)
  | pointer {p rest} (body : Body env p) (tail : Record env rest) : Record env (.pointer p rest)
  | nested {inner rest} (head : Record env inner) (tail : Record env rest) :
      Record env (.nested inner rest)

/-- A value behind a pointer. -/
inductive Body (env : ℕ → Fields) : Pointer → Type where
  | string (text : String) : Body env .string
  | vecScalar {s} (elements : List (Vector UInt8 s.size)) : Body env (.vecScalar s)
  | vecStruct {i} (elements : Elements env (env i)) : Body env (.vecStruct i)

/-- The elements of a `Vec` of structs. -/
inductive Elements (env : ℕ → Fields) : Fields → Type where
  | nil {fs} : Elements env fs
  | cons {fs} (head : Record env fs) (tail : Elements env fs) : Elements env fs

end

variable {env : ℕ → Fields}

def Elements.length {fs : Fields} : Elements env fs → ℕ
  | .nil => 0
  | .cons _ tail => tail.length + 1

end RustBinary.Archive
