import RustBinary.Bounded.Types
import RustBinary.Lib.Saturating
import RustBinary.Native.Payload

/-!
# The cost algebra

The constants that `StaticSize` and `DecodeBounded` give a type, as the implementations for the
primitive types and the collections and the two derives compute them.  The three bounds on bytes,
`MAX_INPUT`, `MAX_WORK` and `MAX_SIZE`, are computed alike, but for the primitive types and optional
values; so are the two on memory.

The bounds on bytes hold for the encoding of every value in both integer profiles, and `MAX_DEPTH`
for its nesting, each as far as it has not saturated.
-/

namespace RustBinary.Bounded

open Lib Native
open Bitpack (IntWidth)

/-! ## Bytes -/

/-- What the bounds on bytes differ in. -/
structure Rates where
  primitive : Primitive → ℕ
  option : ℕ → ℕ

/-- `key_size`. -/
def Ident.keySize (name : Ident) : ℕ := 9 + (toUtf8 name.text).length

/-- A field with its key, if it has one. -/
def keyed : {kind : Kind} → KeyOf Ident kind → ℕ → ℕ
  | .array, _, size => size
  | .object, name, size => saturatingAdd size (Ident.keySize name)

section Bytes

variable (r : Rates)

mutual

def BoundedType.bytes : BoundedType → ℕ
  | .primitive p => r.primitive p
  | .option t => r.option t.bytes
  -- array tag, elements and terminator
  | .array t n => saturatingAdd (saturatingMul t.bytes n) 2
  | .tuple fields => fields.bytes 2
  | .struct shape => shape.bytes
  -- an object with one entry
  | .enum variants => saturatingAdd (saturatingAdd 1 (variants.bytes 0)) 1

/-- `sum_fields` or `sum_bounded_input`, and the overhead of the shape. -/
def Shape.bytes : Shape → ℕ
  | .unit => 1
  | .list _ fields => saturatingAdd (fields.bytes 0) 2

/-- The sum of the fields, from the sum of those before them. -/
def Fields.bytes {kind : Kind} : Fields kind → ℕ → ℕ
  | .nil, sum => sum
  | .cons key t rest, sum => rest.bytes (saturatingAdd sum (keyed key t.bytes))

/-- `variant_content_size` and `variant_bounded_input`. -/
def Shape.contentBytes : Shape → ℕ
  | .unit => 1
  -- a newtype variant writes its payload directly
  | .list .array (.cons _ t .nil) => t.bytes
  | .list _ fields => saturatingAdd (fields.bytes 0) 2

/-- The largest variant, from the largest of those before them. -/
def Variants.bytes : Variants → ℕ → ℕ
  | .nil, maximum => maximum
  | .cons name shape rest, maximum =>
      rest.bytes (max maximum (saturatingAdd name.keySize shape.contentBytes))

end

end Bytes

/-- `MAX_INPUT` of the primitive types. -/
def Primitive.maxInput : Primitive → ℕ
  | unit => 1
  | bool => 1
  | char => 13
  | unsigned .w64 | signed .w64 => 10
  | unsigned .w128 | signed .w128 => 18
  | unsigned _ | signed _ => 9
  | f32 => 5
  | f64 => 9

/-- `MAX_SIZE` of the primitive types. -/
def Primitive.maxSize : Primitive → ℕ
  | unit => 1
  | bool => 1
  | char => 13
  | unsigned .w64 | signed .w64 => 10
  | unsigned .w128 | signed .w128 => 18
  | unsigned _ | signed _ => 9
  | f32 => 5
  | f64 => 9

def inputRates : Rates := ⟨Primitive.maxInput, fun size => max 1 size⟩

def workRates : Rates := ⟨fun p => p.maxInput + 1, fun work => saturatingAdd 1 work⟩

def sizeRates : Rates := ⟨Primitive.maxSize, fun size => max 1 size⟩

namespace BoundedType

/-- `DecodeBounded::MAX_INPUT`. -/
def maxInput (t : BoundedType) : ℕ := t.bytes inputRates

/-- `DecodeBounded::MAX_WORK`. -/
def maxWork (t : BoundedType) : ℕ := t.bytes workRates

/-- `StaticSize::MAX_SIZE`. -/
def maxSize (t : BoundedType) : ℕ := t.bytes sizeRates

end BoundedType

/-! ## Nesting -/

/-- `depth_plus_one`. -/
def depthPlusOne (depth : ℕ) : ℕ := if depth = u64Max then u64Max else depth + 1

mutual

/-- `DecodeBounded::MAX_DEPTH`. -/
def BoundedType.maxDepth : BoundedType → ℕ
  | .primitive _ => 0
  | .option t => t.maxDepth
  | .array t _ => depthPlusOne t.maxDepth
  -- `max_depth!` takes the same maximum from the other end
  | .tuple fields => depthPlusOne (fields.maxDepth 0)
  | .struct shape => shape.maxDepth
  | .enum variants => depthPlusOne (variants.maxDepth 0)

def Shape.maxDepth : Shape → ℕ
  | .unit => 0
  | .list _ fields => depthPlusOne (fields.maxDepth 0)

/-- The deepest field, from the deepest of those before them. -/
def Fields.maxDepth {kind : Kind} : Fields kind → ℕ → ℕ
  | .nil, maximum => maximum
  | .cons _ t rest, maximum => rest.maxDepth (max maximum t.maxDepth)

/-- `variant_bounded_depth`. -/
def Shape.contentDepth : Shape → ℕ
  | .unit => 0
  | .list .array (.cons _ t .nil) => t.maxDepth
  | .list _ fields => depthPlusOne (fields.maxDepth 0)

def Variants.maxDepth : Variants → ℕ → ℕ
  | .nil, maximum => maximum
  | .cons _ shape rest, maximum => rest.maxDepth (max maximum shape.contentDepth)

end

/-- `enum StaticEnum { A, B(u8), C { x: i32, y: i32 } }`. -/
example : let x := (.cons ⟨"x", by decide⟩ (.primitive (.signed .w32))
      (.cons ⟨"y", by decide⟩ (.primitive (.signed .w32)) .nil) : Fields .object)
    let t := BoundedType.enum (.cons ⟨"A", by decide⟩ .unit
      (.cons ⟨"B", by decide⟩ (.list .array (.cons () (.primitive (.unsigned .w8)) .nil))
        (.cons ⟨"C", by decide⟩ (.list .object x) .nil)))
    t.maxInput = 52 ∧ t.maxWork = 54 ∧ t.maxDepth = 2 := by
  decide

/-! ## Memory -/

/-- What the bounds on memory differ in. -/
structure Memory where
  array : ℕ → ℕ → ℕ
  join : ℕ → ℕ → ℕ

section Memory

variable (m : Memory)

mutual

def BoundedType.memory : BoundedType → ℕ
  | .primitive _ => 0
  | .option t => t.memory
  | .array t n => m.array t.memory n
  | .tuple fields => fields.memory 0
  | .struct shape => shape.memory
  | .enum variants => variants.memory 0

/-- `sum_bounded_alloc` or `max_bounded_structural`; it is also what a variant has. -/
def Shape.memory : Shape → ℕ
  | .unit => 0
  | .list _ fields => fields.memory 0

def Fields.memory {kind : Kind} : Fields kind → ℕ → ℕ
  | .nil, joined => joined
  | .cons _ t rest, joined => rest.memory (m.join joined t.memory)

/-- `variant_bounded_alloc` and `variant_bounded_structural`. -/
def Shape.contentMemory : Shape → ℕ
  | .unit => 0
  | .list .array (.cons _ t .nil) => t.memory
  | .list _ fields => fields.memory 0

def Variants.memory : Variants → ℕ → ℕ
  | .nil, maximum => maximum
  | .cons _ shape rest, maximum => rest.memory (max maximum shape.contentMemory)

end

end Memory

namespace BoundedType

/-- `DecodeBounded::MAX_ALLOC`. -/
def maxAlloc (t : BoundedType) : ℕ := t.memory ⟨saturatingMul, saturatingAdd⟩

/-- `DecodeBounded::MAX_STRUCTURAL_ELEMENT`. -/
def maxStructuralElement (t : BoundedType) : ℕ := t.memory ⟨fun element _ => element, max⟩

end BoundedType

/-! ## Lengths on the wire -/

section Lengths

variable [Target] {c : Config}

/-- How long the encoding of a value is. -/
def wireLength (c : Config) (value : Tree Scalar String) : ℕ :=
  (spellValue c (wireOf c value)).length

/-- How long the encodings of some entries are. -/
def entriesLength (c : Config) {kind : Kind} (entries : Forest Scalar String kind) : ℕ :=
  (spellEntries c (entries.map (Scalar.wire c) toUtf8)).length

lemma wireLength_node {kind : Kind} (entries : Forest Scalar String kind) :
    wireLength c (.node kind entries) = entriesLength c entries + 2 := by
  rw [wireLength, wireOf, Lib.Tree.map, spellValue, List.length_cons, List.length_append,
    List.length_singleton, entriesLength]

lemma entriesLength_cons {kind : Kind} (key : KeyOf String kind) (value : Tree Scalar String)
    (rest : Forest Scalar String kind) :
    entriesLength c (.cons key value rest) =
      (spellKey c (key.map toUtf8)).length + (wireLength c value + entriesLength c rest) := by
  rw [entriesLength, Forest.map, spellEntries, List.length_append, List.length_append, wireLength,
    wireOf, entriesLength]

lemma entriesLength_elements (values : List (Tree Scalar String)) :
    entriesLength c (elements values) = (values.map (wireLength c)).sum := by
  induction values with
  | nil => rfl
  | cons value rest ih =>
      have hcons := entriesLength_cons (c := c) (show KeyOf String .array from ()) value
        (elements rest)
      rw [ih] at hcons
      rw [elements, List.map_cons, List.sum_cons]
      exact hcons.trans (Nat.zero_add _)

/-- A word of 64 bits. -/
lemma length_spellInt_64 {n : ℕ} (h : n < 2 ^ 64) : (spellInt c 8 n).length ≤ 9 := by
  rw [spellInt]
  split
  · rw [spellVarint]
    split_ifs
    all_goals simp only [List.length_cons, List.length_nil, length_toBytes]
    all_goals omega
  · rw [length_toBytes]
    omega

/-- A word of 32 bits has no more bytes in the variable profile than in the fixed one. -/
lemma length_spellInt_32 {n : ℕ} (h : n < 2 ^ 32) : (spellInt c 8 n).length ≤ 8 := by
  rw [spellInt]
  split
  · rw [spellVarint]
    split_ifs
    all_goals simp only [List.length_cons, List.length_nil, length_toBytes]
    all_goals omega
  · rw [length_toBytes]

omit [Target] in
/-- The ZigZag word of an integer of `n + 1` bits has as many. -/
lemma zigzagEncode_lt {n : ℕ} (hn : n ≤ 127) {z : ℤ} (hlow : -2 ^ n ≤ z) (hhigh : z < 2 ^ n) :
    zigzagEncode z < 2 ^ (n + 1) := by
  have hpow : (2 : ℤ) ^ n ≤ 2 ^ 127 := by
    exact_mod_cast Nat.pow_le_pow_right (by decide : 0 < 2) hn
  have hword := zigzagEncode_eq (by omega : -2 ^ 127 ≤ z) (by omega)
  have hcast : ((2 ^ (n + 1) : ℕ) : ℤ) = 2 * 2 ^ n := by
    push_cast
    ring
  split at hword <;> omega

lemma length_signed_64 {z : ℤ} (hlow : -2 ^ 63 ≤ z) (hhigh : z < 2 ^ 63) :
    (spellInt c 8 (wordOf c 8 z)).length ≤ 9 := by
  by_cases h : c.integers = .variable ∧ 1 < 8
  · rw [wordOf, if_pos h]
    exact length_spellInt_64 (zigzagEncode_lt (by decide) hlow hhigh)
  · rw [spellInt, if_neg h, length_toBytes]
    omega

lemma length_signed_32 {z : ℤ} (hlow : -2 ^ 31 ≤ z) (hhigh : z < 2 ^ 31) :
    (spellInt c 8 (wordOf c 8 z)).length ≤ 8 := by
  by_cases h : c.integers = .variable ∧ 1 < 8
  · rw [wordOf, if_pos h]
    exact length_spellInt_32 (zigzagEncode_lt (by decide) hlow hhigh)
  · rw [spellInt, if_neg h, length_toBytes]

/-- A text of fewer than `2 ^ 32` bytes. -/
lemma length_spellStr {bytes : List UInt8} (h : bytes.length < 2 ^ 32) :
    (spellStr c bytes).length ≤ 8 + bytes.length := by
  rw [spellStr, List.length_append]
  exact Nat.add_le_add_right (length_spellInt_32 h) _

/-- A key has no more bytes than `key_size` says. -/
lemma length_key (name : Ident) :
    (tagString :: spellStr c (toUtf8 name.text)).length ≤ name.keySize := by
  have hstr := length_spellStr (c := c) name.length_lt
  rw [List.length_cons, Ident.keySize]
  omega

lemma length_keyed {kind : Kind} (key : KeyOf Ident kind) {size n : ℕ}
    (h : Caps u64Max size n) :
    Caps u64Max (keyed key size) ((spellKey c ((key.map Ident.text).map toUtf8)).length + n) := by
  cases kind with
  | array =>
      refine h.anti ?_
      exact (Nat.zero_add n).le
  | object =>
      rw [Nat.add_comm]
      exact h.add (Caps.of_le (length_key key))

omit [Target] in
lemma length_char (value : Char) : (toUtf8 (String.singleton value)).length ≤ 4 := by
  have hsize := Char.utf8Size_le_four value
  rw [toUtf8, String.toByteArray_singleton, List.utf8Encode_singleton]
  simpa using hsize

namespace Primitive

lemma length_unsigned (w : IntWidth) (value : BitVec w.bits) :
    ((((unsigned w).scalar value).wire c).spell c).length ≤ (unsigned w).maxInput := by
  have hlt : BitVec.toNat value < 2 ^ w.bits := BitVec.isLt value
  by_cases h : w = .w128
  · subst h
    exact Nat.succ_le_succ (length_spellInt_le (by decide) _)
  · have hscalar : ((unsigned w).scalar value).wire c = .int .u64 (BitVec.toNat value) :=
      congrArg (Scalar.wire c) (dif_neg h)
    rw [hscalar]
    cases w with
    | w128 => exact absurd rfl h
    | w64 => exact Nat.succ_le_succ (length_spellInt_64 hlt)
    | w8 | w16 | w32 =>
        refine Nat.succ_le_succ (length_spellInt_32 (hlt.trans_le ?_))
        decide

lemma length_signed (w : IntWidth) (value : BitVec w.bits) :
    ((((signed w).scalar value).wire c).spell c).length ≤ (signed w).maxInput := by
  by_cases h : w = .w128
  · subst h
    exact Nat.succ_le_succ (length_spellInt_le (by decide) _)
  · have hscalar : ((signed w).scalar value).wire c =
        .int .i64 (wordOf c 8 (BitVec.toInt value)) :=
      congrArg (Scalar.wire c) (dif_neg h)
    rw [hscalar]
    cases w with
    | w128 => exact absurd rfl h
    | w64 =>
        obtain ⟨hlow, hhigh⟩ := toInt_mem (n := 63) (by decide) (by decide) value
        exact Nat.succ_le_succ (length_signed_64 hlow hhigh)
    | w8 | w16 | w32 =>
        obtain ⟨hlow, hhigh⟩ := toInt_mem (n := 31) (by decide) (by decide) value
        exact Nat.succ_le_succ (length_signed_32 hlow hhigh)

/-- No value of a primitive type is longer than `MAX_INPUT`, which is `MAX_SIZE` too. -/
lemma length_le (p : Primitive) (value : p.Value) :
    (((p.scalar value).wire c).spell c).length ≤ p.maxInput := by
  cases p with
  | unit => exact le_rfl
  | bool => cases value <;> exact le_rfl
  | char =>
      have hlen := length_char value
      have hstr := length_spellStr (c := c) (hlen.trans_lt (by decide))
      exact Nat.succ_le_succ (hstr.trans (Nat.add_le_add_left hlen 8))
  | unsigned w => exact length_unsigned w value
  | signed w => exact length_signed w value
  | f32 | f64 => exact Nat.succ_le_succ (length_toBytes c _ _).le

omit [Target] in
lemma maxSize_eq (p : Primitive) : p.maxSize = p.maxInput := rfl

end Primitive

/-! ## The bounds hold -/

/-- Rates that are enough for the primitive types and for optional values. -/
structure Rates.Enough (c : Config) (r : Rates) : Prop where
  primitive : ∀ (p : Primitive) (value : p.Value),
    (((p.scalar value).wire c).spell c).length ≤ r.primitive p
  none : ∀ size, 1 ≤ r.option size
  some : ∀ {size n}, Caps u64Max size n → Caps u64Max (r.option size) n

section Enough

variable {r : Rates}

omit [Target] in
lemma Variants.le_bytes : ∀ (variants : Variants) (maximum : ℕ),
    maximum ≤ variants.bytes r maximum
  | .nil, _ => le_rfl
  | .cons _ _ rest, _ => (le_max_left _ _).trans (rest.le_bytes _)

/-- A container has two bytes beside its entries. -/
lemma caps_node {kind : Kind} {entries : Forest Scalar String kind} {size : ℕ}
    (h : Caps u64Max size (0 + entriesLength c entries)) :
    Caps u64Max (saturatingAdd size 2) (wireLength c (.node kind entries)) := by
  rw [Nat.zero_add] at h
  rw [wireLength_node]
  exact h.add (Caps.of_le le_rfl)

lemma caps_array {α : Type} {f : α → Tree Scalar String} {size n : ℕ}
    (h : ∀ value, Caps u64Max size (wireLength c (f value))) (values : Vector α n) :
    Caps u64Max (saturatingAdd (saturatingMul size n) 2)
      (wireLength c (.node .array (elements (values.toList.map f)))) := by
  have hsum : Caps u64Max (min (size * (values.toList.map fun value =>
      wireLength c (f value)).length) u64Max)
      (values.toList.map fun value => wireLength c (f value)).sum :=
    Caps.sum (List.forall_mem_map.mpr fun value _ => h value)
  rw [List.length_map, Vector.length_toList] at hsum
  refine caps_node ?_
  rw [entriesLength_elements, List.map_map, Nat.zero_add]
  exact hsum

lemma caps_variant (name : Ident) {content : Tree Scalar String} {size : ℕ}
    (h : Caps u64Max size (wireLength c content)) :
    ∃ n, wireLength c (variant name content) = 1 + n + 1 ∧
      Caps u64Max (saturatingAdd name.keySize size) n := by
  refine ⟨_, ?_, (Caps.of_le (length_key (c := c) name)).add h⟩
  have hentries := entriesLength_cons (c := c) (show KeyOf String .object from name.text) content
    .nil
  have hnil : entriesLength c (.nil : Forest Scalar String .object) = 0 := rfl
  rw [hnil, Nat.add_zero] at hentries
  refine (wireLength_node _).trans ?_
  rw [hentries, Nat.add_comm 1]
  rfl

mutual

/-- The bound of a type is one on the encodings of its values. -/
lemma BoundedType.caps_bytes (hr : r.Enough c) : ∀ (t : BoundedType) (value : t.Value),
    Caps u64Max (t.bytes r) (wireLength c (t.tree value))
  | .primitive p, value => Caps.of_le (hr.primitive p value)
  | .option _, none => Caps.of_le (hr.none _)
  | .option t, some value => hr.some (t.caps_bytes hr value)
  | .array t _, values => caps_array (t.caps_bytes hr) values
  | .tuple fields, values => by
      have hfields := fields.caps_bytes hr values (Caps.of_le (le_refl 2))
      rw [BoundedType.tree, wireLength_node, Nat.add_comm]
      exact hfields
  | .struct shape, values => (shape.caps_bytes hr values).1
  | .enum variants, value => by
      obtain ⟨n, hn, hcaps⟩ := variants.caps_bytes hr value 0
      rw [BoundedType.tree, hn]
      exact ((Caps.of_le le_rfl).add hcaps).add (Caps.of_le le_rfl)

lemma Shape.caps_bytes (hr : r.Enough c) : ∀ (shape : Shape) (values : shape.Values),
    Caps u64Max (shape.bytes r) (wireLength c (shape.tree values)) ∧
      Caps u64Max (shape.contentBytes r) (wireLength c (shape.content values))
  | .unit, _ => ⟨Caps.of_le le_rfl, Caps.of_le le_rfl⟩
  | .list .array .nil, _ => ⟨Caps.of_le le_rfl, Caps.of_le le_rfl⟩
  | .list .array (.cons key t .nil), values =>
      have hvalue := t.caps_bytes hr (Prod.fst values)
      ⟨caps_node ((Fields.cons key t .nil).caps_bytes hr values (Caps.of_le le_rfl)), hvalue⟩
  | .list .array (.cons key t (.cons key' t' rest)), values =>
      have hlist := caps_node ((Fields.cons key t (.cons key' t' rest)).caps_bytes hr values
        (Caps.of_le le_rfl))
      ⟨hlist, hlist⟩
  | .list .object fields, values =>
      have hlist := caps_node (fields.caps_bytes hr values (Caps.of_le le_rfl))
      ⟨hlist, hlist⟩

lemma Fields.caps_bytes (hr : r.Enough c) {kind : Kind} : ∀ (fields : Fields kind)
    (values : fields.Values) {sum n : ℕ}, Caps u64Max sum n →
    Caps u64Max (fields.bytes r sum) (n + entriesLength c (fields.entries values))
  | .nil, _, _, _, h => h
  | .cons key t rest, (value, values), _, _, h => by
      -- the accumulator has the fields before this one, so it is on both sides of the induction
      have hfield := length_keyed (c := c) key (t.caps_bytes hr value)
      have hrest := rest.caps_bytes hr values (h.add hfield)
      rw [Fields.entries, entriesLength_cons, Fields.bytes, ← Nat.add_assoc, ← Nat.add_assoc]
      rw [← Nat.add_assoc] at hrest
      exact hrest

lemma Variants.caps_bytes (hr : r.Enough c) : ∀ (variants : Variants) (value : variants.Value)
    (maximum : ℕ),
    ∃ n, wireLength c (variants.tree value) = 1 + n + 1 ∧
      Caps u64Max (variants.bytes r maximum) n
  | .cons name shape rest, .inl values, maximum => by
      obtain ⟨n, hn, hcaps⟩ := caps_variant name (shape.caps_bytes hr values).2
      exact ⟨n, hn, (hcaps.mono (le_max_right _ _)).mono (rest.le_bytes _)⟩
  | .cons _ _ rest, .inr value, _ => rest.caps_bytes hr value _

end

end Enough

variable (c)

lemma enough_inputRates : Rates.Enough c inputRates where
  primitive p value := p.length_le value
  none _ := le_max_left _ _
  some h := h.mono (le_max_right _ _)

lemma enough_sizeRates : Rates.Enough c sizeRates where
  primitive p value := p.length_le value
  none _ := le_max_left _ _
  some h := h.mono (le_max_right _ _)

lemma enough_workRates : Rates.Enough c workRates where
  primitive p value := (p.length_le value).trans (Nat.le_succ _)
  none work := by
    change 1 ≤ min (1 + work) u64Max
    rw [u64Max]
    omega
  some {size n} h := by
    have hle : min n u64Max ≤ size := h
    change min n u64Max ≤ min (1 + size) u64Max
    omega

end Lengths

/-! ## Nesting of the values -/

lemma caps_depthPlusOne {depth n : ℕ} (h : Caps u64Max depth n) :
    Caps u64Max (depthPlusOne depth) (n + 1) := by
  rw [Caps] at h ⊢
  rw [depthPlusOne]
  split <;> omega

lemma Variants.le_maxDepth : ∀ (variants : Variants) (maximum : ℕ),
    maximum ≤ variants.maxDepth maximum
  | .nil, _ => le_rfl
  | .cons _ _ rest, _ => (le_max_left _ _).trans (rest.le_maxDepth _)

lemma caps_elements {depth : ℕ} {values : List (Tree Scalar String)}
    (h : ∀ value ∈ values, Caps u64Max depth value.height) :
    Caps u64Max depth (elements values).height := by
  induction values with
  | nil => exact Caps.of_le (Nat.zero_le _)
  | cons value rest ih =>
      obtain ⟨hvalue, hrest⟩ := List.forall_mem_cons.mp h
      exact hvalue.max_of (ih hrest)

mutual

/-- `MAX_DEPTH` bounds the nesting of the values. -/
lemma BoundedType.caps_maxDepth : ∀ (t : BoundedType) (value : t.Value),
    Caps u64Max t.maxDepth (t.tree value).height
  | .primitive _, _ => Caps.of_le le_rfl
  | .option _, none => Caps.of_le (Nat.zero_le _)
  | .option t, some value => t.caps_maxDepth value
  | .array t _, _ =>
      caps_depthPlusOne (caps_elements (List.forall_mem_map.mpr fun value _ =>
        t.caps_maxDepth value))
  | .tuple fields, values => caps_depthPlusOne (fields.caps_maxDepth values 0).2
  | .struct shape, values => (shape.caps_maxDepth values).1
  | .enum variants, value => variants.caps_maxDepth value 0

lemma Shape.caps_maxDepth : ∀ (shape : Shape) (values : shape.Values),
    Caps u64Max shape.maxDepth (shape.tree values).height ∧
      Caps u64Max shape.contentDepth (shape.content values).height
  | .unit, _ => ⟨Caps.of_le le_rfl, Caps.of_le le_rfl⟩
  | .list .array .nil, _ => ⟨Caps.of_le le_rfl, Caps.of_le le_rfl⟩
  | .list .array (.cons key t .nil), values =>
      have hvalue := t.caps_maxDepth (Prod.fst values)
      ⟨caps_depthPlusOne ((Fields.cons key t .nil).caps_maxDepth values 0).2, hvalue⟩
  | .list .array (.cons key t (.cons key' t' rest)), values =>
      have hlist := caps_depthPlusOne ((Fields.cons key t (.cons key' t' rest)).caps_maxDepth
        values 0).2
      ⟨hlist, hlist⟩
  | .list .object fields, values =>
      have hlist := caps_depthPlusOne (fields.caps_maxDepth values 0).2
      ⟨hlist, hlist⟩

lemma Fields.caps_maxDepth {kind : Kind} : ∀ (fields : Fields kind) (values : fields.Values)
    (maximum : ℕ), maximum ≤ fields.maxDepth maximum ∧
      Caps u64Max (fields.maxDepth maximum) (fields.entries values).height
  | .nil, _, _ => ⟨le_rfl, Caps.of_le (Nat.zero_le _)⟩
  | .cons _ t rest, values, maximum => by
      obtain ⟨value, values⟩ := values
      obtain ⟨hle, hrest⟩ := rest.caps_maxDepth values (max maximum t.maxDepth)
      have hvalue := (t.caps_maxDepth value).mono ((le_max_right maximum _).trans hle)
      exact ⟨(le_max_left _ _).trans hle, hvalue.max_of hrest⟩

lemma Variants.caps_maxDepth : ∀ (variants : Variants) (value : variants.Value) (maximum : ℕ),
    Caps u64Max (depthPlusOne (variants.maxDepth maximum)) (variants.tree value).height
  | .cons name shape rest, .inl values, maximum => by
      have hcontent := (shape.caps_maxDepth values).2
      have hle : shape.contentDepth ≤ (Variants.cons name shape rest).maxDepth maximum :=
        (le_max_right _ _).trans (rest.le_maxDepth _)
      have hheight : (variant name (shape.content values)).height
          = (shape.content values).height + 1 := congrArg (· + 1) (Nat.max_zero _)
      rw [Variants.tree, hheight]
      exact caps_depthPlusOne (hcontent.mono hle)
  | .cons _ _ rest, .inr value, _ => rest.caps_maxDepth value _

end

/-! ## No memory is allocated -/

section Memory

variable {m : Memory}

mutual

/-- No type that is bounded here allocates. -/
lemma BoundedType.memory_eq_zero (harray : ∀ n, m.array 0 n = 0) (hjoin : m.join 0 0 = 0) :
    ∀ t : BoundedType, t.memory m = 0
  | .primitive _ => rfl
  | .option t => t.memory_eq_zero harray hjoin
  | .array t n => by rw [BoundedType.memory, t.memory_eq_zero harray hjoin, harray]
  | .tuple fields => fields.memory_eq_zero harray hjoin
  | .struct shape => (shape.memory_eq_zero harray hjoin).1
  | .enum variants => variants.memory_eq_zero harray hjoin

lemma Shape.memory_eq_zero (harray : ∀ n, m.array 0 n = 0) (hjoin : m.join 0 0 = 0) :
    ∀ shape : Shape, shape.memory m = 0 ∧ shape.contentMemory m = 0
  | .unit => ⟨rfl, rfl⟩
  | .list .array .nil => ⟨rfl, rfl⟩
  | .list .array (.cons key t .nil) =>
      have hvalue := t.memory_eq_zero harray hjoin
      ⟨(Fields.cons key t .nil).memory_eq_zero harray hjoin, hvalue⟩
  | .list .array (.cons key t (.cons key' t' rest)) =>
      have hlist := (Fields.cons key t (.cons key' t' rest)).memory_eq_zero harray hjoin
      ⟨hlist, hlist⟩
  | .list .object fields =>
      have hlist := fields.memory_eq_zero harray hjoin
      ⟨hlist, hlist⟩

lemma Fields.memory_eq_zero (harray : ∀ n, m.array 0 n = 0) (hjoin : m.join 0 0 = 0)
    {kind : Kind} : ∀ fields : Fields kind, fields.memory m 0 = 0
  | .nil => rfl
  | .cons _ t rest => by
      rw [Fields.memory, t.memory_eq_zero harray hjoin, hjoin, rest.memory_eq_zero harray hjoin]

lemma Variants.memory_eq_zero (harray : ∀ n, m.array 0 n = 0) (hjoin : m.join 0 0 = 0) :
    ∀ variants : Variants, variants.memory m 0 = 0
  | .nil => rfl
  | .cons _ shape rest => by
      rw [Variants.memory, (shape.memory_eq_zero harray hjoin).2, max_self,
        rest.memory_eq_zero harray hjoin]

end

end Memory

namespace BoundedType

lemma maxAlloc_eq_zero (t : BoundedType) : t.maxAlloc = 0 :=
  t.memory_eq_zero (fun n => congrArg (min · u64Max) (Nat.zero_mul n)) rfl

lemma maxStructuralElement_eq_zero (t : BoundedType) : t.maxStructuralElement = 0 :=
  t.memory_eq_zero (fun _ => rfl) rfl

end BoundedType

end RustBinary.Bounded
