import RustBinary.Adaptive.Prefix
import RustBinary.Core.Nextjson
import RustBinary.Core.Slice
import Mathlib.Data.Int.Basic

/-!
# The types of the compact codec

The types that have a compact encoding: the primitive ones, optional values, vectors, double-ended
queues, arrays, maps, and the structs and enums with the derive.  A tuple is a struct.  A type that
contains itself below a collection stands here unfolded, as deep as the depth limit lets a value
go.
-/

namespace RustBinary.Compact

open Lib

/-! ## Primitive types -/

/-- The widths of `impl_unsigned_varint` and `impl_signed_zigzag`. -/
inductive VarWidth where
  | w16
  | w32
  | w64
deriving DecidableEq, Repr

namespace VarWidth

def bytes : VarWidth → ℕ
  | w16 => 2
  | w32 => 4
  | w64 => 8

def bits (w : VarWidth) : ℕ := 8 * w.bytes

/-- The target of an overflow. -/
def unsignedName : VarWidth → String
  | w16 => "u16"
  | w32 => "u32"
  | w64 => "u64"

def signedName : VarWidth → String
  | w16 => "i16"
  | w32 => "i32"
  | w64 => "i64"

end VarWidth

/-- The widths of the floats. -/
inductive FloatWidth where
  | f32
  | f64
deriving DecidableEq, Repr

/-- `size_of` and `align_of`. -/
def FloatWidth.bytes : FloatWidth → ℕ
  | f32 => 4
  | f64 => 8

def FloatWidth.bits (w : FloatWidth) : ℕ := 8 * w.bytes

/-- The primitive types, strings and borrowed byte slices. -/
inductive Scalar where
  | unit
  | bool
  | u8
  | i8
  | unsigned (w : VarWidth)
  | signed (w : VarWidth)
  | u128
  | i128
  | float (w : FloatWidth)
  | char
  /-- `String` and `&str`. -/
  | string
  /-- `&[u8]`. -/
  | bytes
deriving DecidableEq, Repr

namespace Scalar

/-- The values of a type; an integer is a word in two's complement, and a float its bits. -/
def Value : Scalar → Type
  | unit => Unit
  | bool => Bool
  | u8 => UInt8
  | i8 => Int8
  | unsigned w => BitVec w.bits
  | signed w => BitVec w.bits
  | u128 => BitVec 128
  | i128 => BitVec 128
  | float w => BitVec w.bits
  | char => Char
  | string => String
  | bytes => List UInt8

/-- `size_of`, on a 64-bit target. -/
def size : Scalar → ℕ
  | unit => 0
  | bool => 1
  | u8 => 1
  | i8 => 1
  | unsigned w => w.bytes
  | signed w => w.bytes
  | u128 => 16
  | i128 => 16
  | float w => w.bytes
  | char => 4
  | string => 24
  | bytes => 16

/-- The text of a value spans no more than `isize::MAX` bytes. -/
def Allocated : (s : Scalar) → s.Value → Prop
  | string, text => (toUtf8 text).length ≤ isizeMax
  | bytes, slice => List.length slice ≤ isizeMax
  | _, _ => True

end Scalar

/-! ## Types -/

inductive MapKind where
  /-- `BTreeMap`. -/
  | tree
  /-- `HashMap`. -/
  | hash
deriving DecidableEq, Repr

mutual

inductive CompactType where
  | scalar (s : Scalar)
  | option (t : CompactType)
  /-- `Vec<T>`, and `[T]` where a value is only encoded. -/
  | vec (t : CompactType)
  | deque (t : CompactType)
  | array (n : ℕ) (t : CompactType)
  | map (kind : MapKind) (key value : CompactType)
  | struct (fields : Fields)
  | enum (variants : Variants)

inductive Fields where
  | nil
  | cons (t : CompactType) (rest : Fields)

inductive Variants where
  | nil
  | cons (fields : Fields) (rest : Variants)

end

mutual

/-- The values of a type.  A queue is in two pieces, as in its ring buffer; the entries of a map are
in the order in which it is iterated. -/
def CompactType.Value : CompactType → Type
  | .scalar s => s.Value
  | .option t => Option t.Value
  | .vec t => List t.Value
  | .deque t => List t.Value × List t.Value
  | .array _ t => List t.Value
  | .map _ key value => List (key.Value × value.Value)
  | .struct fields => fields.Values
  | .enum variants => variants.Value

def Fields.Values : Fields → Type
  | .nil => Unit
  | .cons t rest => t.Value × rest.Values

def Variants.Value : Variants → Type
  | .nil => Empty
  | .cons fields rest => fields.Values ⊕ rest.Value

end

def Variants.length : Variants → ℕ
  | .nil => 0
  | .cons _ rest => rest.length + 1

/-- The index of the variant of a value. -/
def Variants.index : (variants : Variants) → variants.Value → ℕ
  | .cons _ _, .inl _ => 0
  | .cons _ rest, .inr value => rest.index value + 1

lemma Variants.index_lt (variants : Variants) (value : variants.Value) :
    variants.index value < variants.length := by
  match variants, value with
  | .cons _ _, .inl _ => exact Nat.succ_pos _
  | .cons _ rest, .inr value => exact Nat.succ_lt_succ (rest.index_lt value)

mutual

/-- The value with every queue in one piece.  Two values are equal when these are the same. -/
def CompactType.contiguous : (t : CompactType) → t.Value → t.Value
  | .scalar _, value => value
  | .option t, value => Option.map t.contiguous value
  | .vec t, values => List.map t.contiguous values
  | .deque t, (head, tail) => ((head ++ tail).map t.contiguous, [])
  | .array _ t, values => List.map t.contiguous values
  | .map _ key value, entries =>
      List.map (fun entry => (key.contiguous entry.1, value.contiguous entry.2)) entries
  | .struct fields, values => fields.contiguous values
  | .enum variants, value => variants.contiguous value

def Fields.contiguous : (fields : Fields) → fields.Values → fields.Values
  | .nil, _ => ()
  | .cons t rest, (value, values) => (t.contiguous value, rest.contiguous values)

def Variants.contiguous : (variants : Variants) → variants.Value → variants.Value
  | .cons fields _, .inl values => .inl (fields.contiguous values)
  | .cons _ rest, .inr value => .inr (rest.contiguous value)

end

/-- What the compiler, the standard library and the types themselves bring along. -/
class Platform extends Target where
  /-- The instructions that `plain_varint_prefix` uses. -/
  backend : Adaptive.Backend
  /-- `size_of`. -/
  size : CompactType → ℕ
  size_scalar : ∀ s, size (.scalar s) = s.size
  /-- `Ord::cmp` of the keys of a `BTreeMap`. -/
  cmp : (t : CompactType) → t.Value → t.Value → Ordering
  cmp_swap : ∀ t a b, cmp t b a = (cmp t a b).swap
  /-- Queues are compared by their elements. -/
  cmp_contiguous : ∀ t a b, cmp t (t.contiguous a) (t.contiguous b) = cmp t a b
  /-- `PartialEq::eq` of the keys of a `HashMap`. -/
  same : (t : CompactType) → t.Value → t.Value → Bool
  same_contiguous : ∀ t a b, same t (t.contiguous a) (t.contiguous b) = same t a b
  /-- Whether the table of a `HashMap` has room for so many entries within `isize::MAX` bytes. -/
  reserves : (key value : CompactType) → ℕ → Bool

/-- A little-endian target without vector instructions, as far as primitive types and collections
of them go. -/
@[reducible] def Platform.sample : Platform where
  littleEndian := true
  backend := .portable
  size
    | .scalar s => s.size
    | _ => 24
  size_scalar _ := rfl
  cmp _ _ _ := .eq
  cmp_swap _ _ _ := rfl
  cmp_contiguous _ _ _ := rfl
  same _ _ _ := true
  same_contiguous _ _ _ := rfl
  reserves _ _ _ := true

/-! ## Accepted types and allocated values -/

mutual

/-- A type that can be written down: an array fits the address space, and an enum has no more
variants than a source file has bytes. -/
def CompactType.Accepted [Platform] : CompactType → Prop
  | .scalar _ => True
  | .option t => t.Accepted
  | .vec t => t.Accepted
  | .deque t => t.Accepted
  | .array n t => Platform.size t * n ≤ isizeMax ∧ t.Accepted
  | .map _ key value => key.Accepted ∧ value.Accepted
  | .struct fields => fields.Accepted
  | .enum variants => variants.length ≤ 2 ^ 32 ∧ variants.Accepted

def Fields.Accepted [Platform] : Fields → Prop
  | .nil => True
  | .cons t rest => t.Accepted ∧ rest.Accepted

def Variants.Accepted [Platform] : Variants → Prop
  | .nil => True
  | .cons fields rest => fields.Accepted ∧ rest.Accepted

end

/-- A collection of `count` elements: the count is a `usize`, and they span no more than
`isize::MAX` bytes. -/
def Spans [Platform] (t : CompactType) (count : ℕ) : Prop :=
  count ≤ u64Max ∧ Platform.size t * count ≤ isizeMax

/-- The keys of a map differ, and those of a `BTreeMap` ascend. -/
def Distinct [Platform] (kind : MapKind) (key : CompactType) (keys : List key.Value) : Prop :=
  match kind with
  | .tree => keys.Pairwise fun a b => Platform.cmp key a b = .lt
  | .hash => keys.Pairwise fun a b => Platform.same key a b = false

/-- `p` holds of every element. -/
def Every {α : Type} (p : α → Prop) (as : List α) : Prop := ∀ a ∈ as, p a

mutual

/-- A value that exists in memory. -/
def CompactType.Allocated [Platform] : (t : CompactType) → t.Value → Prop
  | .scalar s, value => s.Allocated value
  | .option t, value => Every t.Allocated (Option.toList value)
  | .vec t, values => Spans t (List.length values) ∧ Every t.Allocated values
  | .deque t, (head, tail) =>
      Spans t (head ++ tail).length ∧ Every t.Allocated (head ++ tail)
  | .array n t, values => List.length values = n ∧ Every t.Allocated values
  | .map kind key value, entries =>
      List.length entries ≤ u64Max ∧
      (kind = .hash → Platform.reserves key value (List.length entries) = true) ∧
      Distinct kind key (List.map Prod.fst entries) ∧
      Every (fun entry => key.Allocated entry.1 ∧ value.Allocated entry.2) entries
  | .struct fields, values => fields.Allocated values
  | .enum variants, value => variants.Allocated value

def Fields.Allocated [Platform] : (fields : Fields) → fields.Values → Prop
  | .nil, _ => True
  | .cons t rest, (value, values) => t.Allocated value ∧ rest.Allocated values

def Variants.Allocated [Platform] : (variants : Variants) → variants.Value → Prop
  | .cons fields _, .inl values => fields.Allocated values
  | .cons _ rest, .inr value => rest.Allocated value

end

/-- A type with `CompactEncode` and `CompactDecode`. -/
structure Encodable [Platform] where
  type : CompactType
  accepted : type.Accepted

end RustBinary.Compact
