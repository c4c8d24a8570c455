import RustBinary.Lib.Act
import RustBinary.Lib.Bytes
import RustBinary.Core.Config

/-!
# The event contract of the decoders

Both decoders of the crate implement the pull interface `FormatDecoder`: a caller reads a
value by a sequence of calls, and every call answers with a value or an error.  This file
has the vocabulary of that interface: tokens, numbers, marks, the calls and their answers.

Floats are carried as their bit patterns.  The two conversions to `f64` are exact on every
value that is not a NaN, so they are given on the bits.
-/

namespace RustBinary

open Lib

/-! ## Text -/

/-- The UTF-8 bytes of a string. -/
def toUtf8 (s : String) : List UInt8 := s.toByteArray.data.toList

/-- `core::str::from_utf8`. -/
def fromUtf8 (bs : List UInt8) : Option String := String.fromUTF8? ⟨bs.toArray⟩

@[simp] lemma fromUtf8_toUtf8 (s : String) : fromUtf8 (toUtf8 s) = some s := by
  have h : (⟨s.toByteArray.data.toList.toArray⟩ : ByteArray) = s.toByteArray := by simp
  rw [fromUtf8, toUtf8, h, String.fromUTF8?]
  simp [s.isValidUTF8, String.fromUTF8]

lemma fromUtf8_eq_some {bytes : List UInt8} {text : String} :
    fromUtf8 bytes = some text ↔ bytes = toUtf8 text := by
  constructor
  · intro h
    rw [fromUtf8, String.fromUTF8?] at h
    split_ifs at h with hvalid
    cases h
    rfl
  · rintro rfl
    exact fromUtf8_toUtf8 text

lemma toUtf8_inj {value text : String} (h : toUtf8 value = toUtf8 text) : value = text := by
  have hvalue := fromUtf8_toUtf8 value
  rw [h, fromUtf8_toUtf8] at hvalue
  exact (Option.some.inj hvalue).symm

/-- An ASCII character is a byte of its own. -/
lemma toUtf8_push {n : ℕ} (h : n < 128) (value : String) :
    toUtf8 (value.push (Char.ofNat n)) = toUtf8 value ++ [UInt8.ofNat n] := by
  have hvalid : n.isValidChar := .inl (by omega)
  have hval : (Char.ofNat n).val.toNat = n := by
    rw [Char.ofNat, dif_pos hvalid]
    rfl
  have hchar : String.utf8EncodeChar (Char.ofNat n) = [UInt8.ofNat n] := by
    rw [String.utf8EncodeChar, hval, if_pos (by omega)]
  rw [toUtf8, toUtf8, String.toByteArray_push, List.utf8Encode_singleton, hchar]
  simp

/-! ## Numbers -/

/-- `nextjson::Number`. -/
inductive Number where
  | u64 (value : ℕ)
  | u128 (value : ℕ)
  | i64 (value : ℤ)
  | i128 (value : ℤ)
  | f64 (bits : ℕ)
deriving DecidableEq, Repr

/-- `value as i128` of a `u128`. -/
def asI128 (value : ℕ) : ℤ := if value < 2 ^ 127 then value else (value : ℤ) - 2 ^ 128

/-- The bits of the `f64` with sign bit `sign` and value `± fraction * 2 ^ exponent`, for a
positive `fraction` of at most 53 bits. -/
def f64OfScaled (sign fraction : ℕ) (exponent : ℤ) : ℕ :=
  sign * 2 ^ 63 + (1023 + Nat.log2 fraction + exponent).toNat * 2 ^ 52 +
    (fraction - 2 ^ Nat.log2 fraction) * 2 ^ (52 - Nat.log2 fraction)

/-- `half_to_f64`: an IEEE 754 half-precision value as an `f64`. -/
def halfToF64 (half : ℕ) : ℕ :=
  let sign : ℕ := half / 2 ^ 15 % 2
  let exponent : ℕ := half / 2 ^ 10 % 2 ^ 5
  let fraction : ℕ := half % 2 ^ 10
  if exponent = 0 then
    if fraction = 0 then sign * 2 ^ 63
    else f64OfScaled sign fraction (-24)
  else if exponent = 0x1f then
    if fraction = 0 then sign * 2 ^ 63 + 0x7ff * 2 ^ 52
    -- `f64::NAN`, whatever the sign and the payload were
    else 0x7ff8 * 2 ^ 48
  else f64OfScaled sign (fraction + 1024) (exponent - 25)

/-- `value as f64` of an `f32`; a NaN is made quiet and keeps its payload. -/
def f32ToF64 (single : ℕ) : ℕ :=
  let sign : ℕ := single / 2 ^ 31 % 2
  let exponent : ℕ := single / 2 ^ 23 % 2 ^ 8
  let fraction : ℕ := single % 2 ^ 23
  if exponent = 0 then
    if fraction = 0 then sign * 2 ^ 63
    else f64OfScaled sign fraction (-149)
  else if exponent = 0xff then
    if fraction = 0 then sign * 2 ^ 63 + 0x7ff * 2 ^ 52
    else sign * 2 ^ 63 + 0x7ff * 2 ^ 52 + 2 ^ 51 + fraction % 2 ^ 22 * 2 ^ 29
  else f64OfScaled sign (fraction + 2 ^ 23) (exponent - 150)

example : halfToF64 0x3c00 = 0x3ff0000000000000 ∧ halfToF64 0xc000 = 0xc000000000000000 ∧
    halfToF64 0x0001 = 0x3e70000000000000 ∧ f32ToF64 0x3f800000 = 0x3ff0000000000000 := by
  decide

/-! ## Tokens, marks and errors -/

/-- `nextjson::Token`. -/
inductive Token where
  | null
  | bool (value : Bool)
  | number (value : Number)
  | str (text : String)
  | beginObject
  | endObject
  | beginArray
  | endArray
deriving DecidableEq, Repr

/-- `token_name`. -/
def Token.name : Token → String
  | null => "null"
  | bool _ => "bool"
  | number _ => "number"
  | str _ => "string"
  | beginObject => "object"
  | endObject => "end of object"
  | beginArray => "array"
  | endArray => "end of array"

/-- `nextjson::OptionTag`. -/
inductive OptionTag where
  | none
  | some
deriving DecidableEq, Repr

/-- `nextjson::de::Mark`: a position and a nesting depth. -/
structure Mark where
  pos : ℕ
  depth : ℕ
deriving DecidableEq, Repr

/-- The errors that cross the `FormatDecoder` boundary. -/
inductive NextjsonError where
  | custom (message : String)
  | invalidType (expected found : String)
  /-- `nextjson`'s own narrowing of a number to `u8` has failed. -/
  | narrowing (number : Number)
deriving DecidableEq, Repr

/-- The expectation reported by `invalid_type`: the text installed by `set_expecting`
replaces the description of a container. -/
def expectation (expecting : Option String) (expected : String) : String :=
  match expecting with
  | some text => if expected = "an object" ∨ expected = "an array" then text else expected
  | none => expected

/-! ## Counters -/

/-- `for slot in &mut counts[depth..] { *slot = 0; }`. -/
def clearFrom (depth : ℕ) (counts : Vector ℕ maxDepth) : Vector ℕ maxDepth :=
  Vector.ofFn fun i => if i < depth then counts[i] else 0

lemma getElem_clearFrom (depth : ℕ) (counts : Vector ℕ maxDepth) {i : ℕ} (hi : i < maxDepth) :
    (clearFrom depth counts)[i] = if i < depth then counts[i] else 0 := Vector.getElem_ofFn hi

/-- Clearing gives back counters that are zero from `depth` on, and that are known to agree
below the last level, exactly if they agree on that level. -/
lemma clearFrom_eq_iff {depth : ℕ} {s t : Vector ℕ maxDepth}
    (hzero : ∀ (i : ℕ) (hi : i < maxDepth), depth ≤ i → s[i] = 0)
    (hbelow : ∀ (i : ℕ) (hi : i < maxDepth), i + 1 < depth → t[i] = s[i]) :
    clearFrom depth t = s ↔ ∀ (i : ℕ) (hi : i < maxDepth), depth = i + 1 → t[i] = s[i] := by
  constructor
  · rintro rfl i hi hd
    rw [getElem_clearFrom, if_pos (by omega)]
  · intro h
    refine Vector.ext fun i hi => ?_
    rw [getElem_clearFrom]
    rcases Nat.lt_trichotomy (i + 1) depth with hlt | heq | hgt
    · rw [if_pos (by omega), hbelow i hi hlt]
    · rw [if_pos (by omega), h i hi heq.symm]
    · rw [if_neg (by omega), hzero i hi (by omega)]

/-! ## Calls and answers -/

/-- The methods of `FormatDecoder` that both decoders implement. -/
inductive Call where
  | beginObject
  | endObject
  | objectKey
  | objectEntrySep
  | beginArray
  | endArray
  | arrayHasMore
  | arrayEntrySep
  | unit
  | bool
  | number
  | string
  | char
  | skipValue
  | peekToken
  | nextToken
  | save
  | restore (mark : Mark)
  | setExpecting (text : String)
  | isHumanReadable
deriving DecidableEq, Repr

/-- What a successful call answers. -/
inductive Answer where
  | unit
  | bool (value : Bool)
  | number (value : Number)
  | string (text : String)
  | char (value : Char)
  | key (text : Option String)
  | token (value : Token)
  | bytes (value : List UInt8)
  | optionTag (tag : OptionTag)
  | mark (mark : Mark)
  | expecting (text : Option String)
deriving DecidableEq, Repr

/-- The single character of a text, if it has exactly one. -/
def singleChar (text : String) : Option Char :=
  match text.toList with
  | [c] => some c
  | _ => none

/-- The narrowing of an unsigned number to a byte. -/
def narrowUnsigned : Number → Option UInt8
  | .u64 value => if value < 256 then some (UInt8.ofNat value) else none
  | _ => none

end RustBinary
