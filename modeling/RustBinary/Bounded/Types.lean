import RustBinary.Bitpack.Derive
import RustBinary.Native.Encoder

/-!
# Statically bounded types

The types whose encodings have a bound: the primitive ones, optional values, arrays, tuples, and
the structs and enums with the derives.  What a value is for the encoder is the shape that nextjson
documents: a list of fields without names is an array, one with names an object under the
identifiers, and a variant is an object with one entry under its identifier.
-/

namespace RustBinary.Bounded

open Lib Native
open Bitpack (IntWidth)

/-! ## Primitive types -/

inductive Primitive where
  | unit
  | bool
  | char
  | unsigned (w : IntWidth)
  | signed (w : IntWidth)
  | f32
  | f64
deriving DecidableEq, Repr

/-- A word of at most `n + 1` bits is an integer of that size. -/
lemma toInt_mem {w n : ℕ} (hpos : 0 < w) (h : w ≤ n + 1) (value : BitVec w) :
    -2 ^ n ≤ value.toInt ∧ value.toInt < 2 ^ n := by
  have hlow := value.le_toInt
  have hhigh := value.toInt_lt
  have hpow : (2 : ℤ) ^ (w - 1) ≤ 2 ^ n := by
    exact_mod_cast Nat.pow_le_pow_right (by decide : 0 < 2) (by omega : w - 1 ≤ n)
  omega

/-- Every width but the last is one of at most 64 bits. -/
lemma bits_le {w : IntWidth} (h : w ≠ .w128) : 0 < w.bits ∧ w.bits ≤ 64 := by
  cases w <;> first | decide | exact absurd rfl h

namespace Primitive

/-- The values of a type; an integer is a word in two's complement, and a float its bits. -/
def Value : Primitive → Type
  | unit => Unit
  | bool => Bool
  | char => Char
  | unsigned w => BitVec w.bits
  | signed w => BitVec w.bits
  | f32 => BitVec 32
  | f64 => BitVec 64

/-- An integer crosses the wire as a `u64` or an `i64`, unless it has 128 bits. -/
def scalar : (p : Primitive) → p.Value → Scalar
  | unit, _ => .null
  | bool, value => .bool value
  | char, value => .char value
  | unsigned w, value =>
      if h : w = .w128 then .u128 (BitVec.toNat value) (by subst h; exact BitVec.isLt value)
      else .u64 (BitVec.toNat value) <| (BitVec.isLt value).trans_le <|
        Nat.pow_le_pow_right (by decide) (bits_le h).2
  | signed w, value =>
      if h : w = .w128 then
        have hz := toInt_mem (n := 127) (by subst h; decide) (by subst h; decide) value
        .i128 (BitVec.toInt value) hz.1 hz.2
      else
        have hz := toInt_mem (n := 63) (bits_le h).1 (bits_le h).2 value
        .i64 (BitVec.toInt value) hz.1 hz.2
  | f32, value => .f32 (BitVec.toNat value) (BitVec.isLt value)
  | f64, value => .f64 (BitVec.toNat value) (BitVec.isLt value)

end Primitive

/-! ## Types -/

/-- The name of a field or a variant.  It stands in a source file, and these have fewer than
`2 ^ 32` bytes. -/
structure Ident where
  text : String
  length_lt : (toUtf8 text).length < 2 ^ 32

mutual

inductive BoundedType where
  | primitive (p : Primitive)
  | option (t : BoundedType)
  | array (t : BoundedType) (n : ℕ)
  /-- The code goes up to eight fields. -/
  | tuple (fields : Fields .array)
  | struct (shape : Shape)
  | enum (variants : Variants)

/-- `syn::Fields`. -/
inductive Shape where
  | unit
  /-- Fields without names are an array, fields with names an object. -/
  | list (kind : Kind) (fields : Fields kind)

inductive Fields : Kind → Type where
  | nil {kind : Kind} : Fields kind
  | cons {kind : Kind} (key : KeyOf Ident kind) (t : BoundedType) (rest : Fields kind) :
      Fields kind

inductive Variants where
  | nil
  | cons (name : Ident) (shape : Shape) (rest : Variants)

end

mutual

def BoundedType.Value : BoundedType → Type
  | .primitive p => p.Value
  | .option t => Option t.Value
  | .array t n => Vector t.Value n
  | .tuple fields => fields.Values
  | .struct shape => shape.Values
  | .enum variants => variants.Value

def Shape.Values : Shape → Type
  | .unit => Unit
  | .list _ fields => fields.Values

def Fields.Values {kind : Kind} : Fields kind → Type
  | .nil => Unit
  | .cons _ t rest => t.Value × rest.Values

def Variants.Value : Variants → Type
  | .nil => Empty
  | .cons _ shape rest => shape.Values ⊕ rest.Value

end

/-! ## What the encoder is given -/

/-- The elements of an array. -/
def elements : List (Tree Scalar String) → Forest Scalar String .array
  | [] => .nil
  | value :: rest => .cons () value (elements rest)

/-- A variant is an object with one entry. -/
def variant (name : Ident) (content : Tree Scalar String) : Tree Scalar String :=
  .node .object (.cons name.text content .nil)

mutual

def BoundedType.tree : (t : BoundedType) → t.Value → Tree Scalar String
  | .primitive p, value => .scalar (p.scalar value)
  | .option _, none => .scalar .null
  | .option t, some value => t.tree value
  | .array t _, values => .node .array (elements ((Vector.toList values).map t.tree))
  | .tuple fields, values => .node .array (fields.entries values)
  | .struct shape, values => shape.tree values
  | .enum variants, value => variants.tree value

def Shape.tree : (shape : Shape) → shape.Values → Tree Scalar String
  | .unit, _ => .scalar .null
  | .list kind fields, values => .node kind (fields.entries values)

def Fields.entries {kind : Kind} :
    (fields : Fields kind) → fields.Values → Forest Scalar String kind
  | .nil, _ => .nil
  | .cons key t rest, (value, values) =>
      .cons (key.map Ident.text) (t.tree value) (rest.entries values)

/-- What stands under the name of a variant: one field without a name stands for itself. -/
def Shape.content : (shape : Shape) → shape.Values → Tree Scalar String
  | .unit, _ => .scalar .null
  | .list .array (.cons _ t .nil), values => t.tree (Prod.fst values)
  | .list kind fields, values => .node kind (fields.entries values)

def Variants.tree : (variants : Variants) → variants.Value → Tree Scalar String
  | .cons name shape _, .inl values => variant name (shape.content values)
  | .cons _ _ rest, .inr value => rest.tree value

end

end RustBinary.Bounded
