import RustBinary.Projections.Parsed
import RustBinary.Projections.Proof

/-!
# The builder of records

`RecordBuilder` takes fields in increasing order of their identifiers and keeps count of the
encoded length; `finish` writes the count of the fields and the lengths of the payloads as 32-bit
words.  What it writes is parsed under the same limits, as the fields that were inserted, exactly
if these numbers fit and the empty record has room (`finish_parses_iff`).
-/

namespace RustBinary.Projections

open Lib Lib.Outcome

structure RecordBuilder where
  schemaVersion : UInt32
  limits : ProjectionLimits
  fields : List ParsedField
  encodedLen : ℕ

namespace RecordBuilder

/-- `RecordBuilder::with_limits`. -/
def withLimits (schemaVersion : UInt32) (limits : ProjectionLimits) : RecordBuilder where
  schemaVersion := schemaVersion
  limits := limits
  fields := []
  encodedLen := headerLen + authLen

/-- The identifier is above the last one. -/
def checkOrder (b : RecordBuilder) (fieldId : FieldId) : Result Unit :=
  match b.fields.getLast? with
  | some last =>
      if fieldId ≤ last.fieldId then
        if fieldId = last.fieldId then err (.duplicateField fieldId) else err .nonCanonicalOrder
      else pure ()
  | none => pure ()

/-- `insert`. -/
def insert (b : RecordBuilder) (fieldId : FieldId) (payload : List UInt8) :
    Result RecordBuilder := do
  b.checkOrder fieldId
  require (b.fields.length + 1 ≤ b.limits.maxFields) (.fieldLimit b.limits.maxFields)
  require (payload.length ≤ b.limits.maxPayloadLen) (.payloadLimit b.limits.maxPayloadLen)
  let contribution ← okOr (checkedAdd payload.length 8) (.recordLimit u64Max)
  let encodedLen ← okOr (checkedAdd b.encodedLen contribution) (.recordLimit u64Max)
  require (encodedLen ≤ b.limits.maxRecordLen) (.recordLimit b.limits.maxRecordLen)
  pure { b with encodedLen := encodedLen, fields := b.fields ++ [⟨fieldId, payload⟩] }

end RecordBuilder

/-- A field on the wire; its length is written as a `u32`. -/
def ParsedField.encode (field : ParsedField) : List UInt8 :=
  leBytes 4 field.fieldId.toNat ++
    (leBytes 4 (field.payload.length % 2 ^ 32) ++ field.payload)

namespace RecordBuilder

/-- `finish`; the reservation is taken to succeed. -/
def finish (blake3 : List UInt8 → Digest) (b : RecordBuilder) : Result (List UInt8) :=
  let merkle := merkleRoot (nodeHash blake3) (merkleLeaves blake3 b.fields)
  let root := schemaRoot blake3 b.schemaVersion merkle
  pure (magic ++ (leBytes 2 formatVersion ++ (leBytes 2 flagMerkle ++
    (leBytes 4 (b.fields.length % 2 ^ 32) ++ (leBytes 4 b.schemaVersion.toNat ++
      (b.fields.flatMap ParsedField.encode ++ root.toList))))))

/-- Fields that are inserted one after the other. -/
def insertAll : RecordBuilder → List ParsedField → Result RecordBuilder
  | b, [] => pure b
  | b, field :: fields => do
      let b ← b.insert field.fieldId field.payload
      b.insertAll fields

/-- What insertions keep: the order, the encoded length and, behind the first one, the limits. -/
structure Invariant (schemaVersion : UInt32) (limits : ProjectionLimits) (b : RecordBuilder) :
    Prop where
  schemaVersion_eq : b.schemaVersion = schemaVersion
  limits_eq : b.limits = limits
  increasing : b.fields.Pairwise fun f g => f.fieldId < g.fieldId
  encodedLen_eq : b.encodedLen = headerLen + authLen + (b.fields.flatMap ParsedField.encode).length
  encodedLen_le : b.encodedLen ≤ u64Max
  count_le : b.fields.length ≤ limits.maxFields
  payload_le : ∀ field ∈ b.fields, field.payload.length ≤ limits.maxPayloadLen
  record_le : b.fields ≠ [] → b.encodedLen ≤ limits.maxRecordLen

variable {schemaVersion : UInt32} {limits : ProjectionLimits} {b : RecordBuilder}

lemma length_encode (field : ParsedField) : field.encode.length = field.payload.length + 8 := by
  simp only [ParsedField.encode, List.length_append, length_leBytes]
  omega

/-- A field that is taken comes after the fields that are there. -/
lemma checkOrder_eq_ok {fieldId : FieldId} (h : b.checkOrder fieldId = .ok ())
    (hincreasing : b.fields.Pairwise fun f g => f.fieldId < g.fieldId) :
    ∀ field ∈ b.fields, field.fieldId < fieldId := by
  rw [checkOrder] at h
  cases hlast : b.fields.getLast? with
  | none =>
      rw [List.getLast?_eq_none_iff] at hlast
      simp [hlast]
  | some last =>
      rw [hlast] at h
      dsimp only at h
      split at h
      · split at h <;> cases h
      · next hlt =>
          obtain ⟨front, hfields⟩ := List.getLast?_eq_some_iff.mp hlast
          rw [hfields, List.pairwise_append] at hincreasing
          intro field hmem
          rw [hfields, List.mem_append, List.mem_singleton] at hmem
          have hlast : last.fieldId < fieldId := UInt32.not_le.mp hlt
          rcases hmem with hfront | rfl
          · exact UInt32.lt_trans (hincreasing.2.2 field hfront last List.mem_cons_self) hlast
          · exact hlast

/-- One insertion keeps the invariant. -/
lemma Invariant.insert {b' : RecordBuilder} {fieldId : FieldId} {payload : List UInt8}
    (hb : Invariant schemaVersion limits b) (h : b.insert fieldId payload = .ok b') :
    Invariant schemaVersion limits b' := by
  rw [RecordBuilder.insert] at h
  obtain ⟨_, horder, h⟩ := bind_eq_ok.mp h
  obtain ⟨_, hcount, h⟩ := bind_eq_ok.mp h
  obtain ⟨_, hpayload, h⟩ := bind_eq_ok.mp h
  obtain ⟨contribution, hcontribution, h⟩ := bind_eq_ok.mp h
  obtain ⟨encodedLen, hencoded, h⟩ := bind_eq_ok.mp h
  obtain ⟨_, hrecord, h⟩ := bind_eq_ok.mp h
  cases h
  rw [okOr_eq_ok, checkedAdd, Option.ite_none_right_eq_some, Option.some.injEq] at hcontribution
  rw [okOr_eq_ok, checkedAdd, Option.ite_none_right_eq_some, Option.some.injEq] at hencoded
  have hcount := require_eq_ok.mp hcount
  have hpayload := require_eq_ok.mp hpayload
  have hrecord := require_eq_ok.mp hrecord
  have hlt := checkOrder_eq_ok horder hb.increasing
  rw [hb.limits_eq] at hcount hpayload hrecord
  refine ⟨hb.schemaVersion_eq, hb.limits_eq, ?_, ?_, ?_, ?_, ?_, fun _ => hrecord⟩
  · refine List.pairwise_append.mpr ⟨hb.increasing, List.pairwise_singleton _ _, ?_⟩
    intro field hfield g hg
    rw [List.mem_singleton] at hg
    exact hg ▸ hlt field hfield
  · have hlen := hb.encodedLen_eq
    simp only [List.flatMap_append, List.flatMap_cons, List.flatMap_nil, List.append_nil,
      List.length_append, length_encode]
    omega
  · dsimp only
    omega
  · simpa using hcount
  · intro field hmem
    rcases List.mem_append.mp hmem with hold | hnew
    · exact hb.payload_le field hold
    · rw [List.mem_singleton.mp hnew]
      exact hpayload

lemma invariant_withLimits (schemaVersion : UInt32) (limits : ProjectionLimits) :
    Invariant schemaVersion limits (withLimits schemaVersion limits) where
  schemaVersion_eq := rfl
  limits_eq := rfl
  increasing := List.Pairwise.nil
  encodedLen_eq := rfl
  encodedLen_le := by
    show 16 + 32 ≤ u64Max
    decide
  count_le := Nat.zero_le _
  payload_le := fun _ hfield => absurd hfield List.not_mem_nil
  record_le := fun hne => absurd rfl hne

/-- Insertions keep the invariant, and the builder has the fields that were inserted. -/
lemma Invariant.insertAll {b' : RecordBuilder} {inserted : List ParsedField}
    (hb : Invariant schemaVersion limits b) (h : b.insertAll inserted = .ok b') :
    Invariant schemaVersion limits b' ∧ b'.fields = b.fields ++ inserted := by
  induction inserted generalizing b with
  | nil =>
      cases h
      exact ⟨hb, (List.append_nil _).symm⟩
  | cons field inserted ih =>
      obtain ⟨b₁, hinsert, h⟩ := bind_eq_ok.mp h
      obtain ⟨hb', hfields⟩ := ih (hb.insert hinsert) h
      have hone : b₁.fields = b.fields ++ [field] := by
        rw [RecordBuilder.insert] at hinsert
        iterate 6
          obtain ⟨_, _, hinsert⟩ := bind_eq_ok.mp hinsert
        cases hinsert
        rfl
      refine ⟨hb', ?_⟩
      rw [hfields, hone, List.append_assoc]
      rfl

end RecordBuilder

/-! ## Parsing what was written -/

/-- A slice of a frame whose parts in front have the length `start`. -/
lemma slice_part {pre mid post bytes : List UInt8} {start stop : ℕ}
    (hbytes : bytes = pre ++ (mid ++ post)) (hstart : pre.length = start)
    (hstop : start + mid.length = stop) : slice bytes start stop = some mid := by
  subst hbytes hstart hstop
  exact slice_append pre mid post

lemma regroup {bytes xs ys zs : List UInt8} (h : bytes = xs ++ (ys ++ zs)) :
    bytes = (xs ++ ys) ++ zs := by
  rw [h, List.append_assoc]

variable {input : Input} {limits : ProjectionLimits}

lemma readU32_part {pre post : List UInt8} {n cursor : ℕ}
    (hbytes : input.bytes = pre ++ (leBytes 4 n ++ post)) (hcursor : pre.length = cursor)
    (hn : n < 2 ^ 32) : readU32 input cursor = .ok (UInt32.ofNat n, cursor + 4) := by
  have hlen := input.length_le
  rw [hbytes, List.length_append, List.length_append, length_leBytes] at hlen
  have hadd : checkedAdd cursor 4 = some (cursor + 4) := if_pos (by omega)
  rw [readU32, hadd, okOr_some, ok_bind,
    slice_part hbytes hcursor (by rw [length_leBytes]), okOr_some, ok_bind,
    leNat_leBytes (by omega)]
  rfl

/-- The number of fields and the lengths of the payloads fit into their words. -/
def FieldsFit (fields : List ParsedField) : Prop :=
  fields.length < 2 ^ 32 ∧ ∀ field ∈ fields, field.payload.length < 2 ^ 32

/-- A field is parsed from where it was written. -/
lemma parseField_encode {field : ParsedField} {pre post : List UInt8} {cursor : ℕ}
    {prev : Option FieldId} (hbytes : input.bytes = pre ++ (field.encode ++ post))
    (hcursor : pre.length = cursor) (hfit : field.payload.length < 2 ^ 32)
    (hle : field.payload.length ≤ limits.maxPayloadLen) (hfollows : follows prev field.fieldId) :
    parseField input limits cursor prev = .ok (field, cursor + field.encode.length) := by
  have hlen := input.length_le
  have hid : input.bytes = pre ++ (leBytes 4 field.fieldId.toNat ++
      (leBytes 4 field.payload.length ++ field.payload ++ post)) := by
    rw [hbytes, ParsedField.encode, Nat.mod_eq_of_lt hfit]
    simp only [List.append_assoc]
  have hsize : input.bytes = (pre ++ leBytes 4 field.fieldId.toNat) ++
      (leBytes 4 field.payload.length ++ (field.payload ++ post)) := by
    rw [hid]
    simp only [List.append_assoc]
  have hpayload : input.bytes = (pre ++ leBytes 4 field.fieldId.toNat ++
      leBytes 4 field.payload.length) ++ (field.payload ++ post) := by
    rw [hsize]
    simp only [List.append_assoc]
  rw [hpayload, List.length_append, List.length_append] at hlen
  simp only [List.length_append, length_leBytes] at hlen
  have hnat : (UInt32.ofNat field.payload.length).toNat = field.payload.length := by
    rw [UInt32.toNat_ofNat']
    exact Nat.mod_eq_of_lt hfit
  have hadd : checkedAdd (cursor + 4 + 4) field.payload.length
      = some (cursor + 4 + 4 + field.payload.length) := if_pos (by omega)
  rw [parseField, readU32_part hid hcursor field.fieldId.toNat_lt, ok_bind]
  dsimp only
  rw [readU32_part hsize (by simp [hcursor]) hfit, ok_bind]
  dsimp only
  rw [hnat, require_of hle, ok_bind, UInt32.ofNat_toNat, require_of hfollows, ok_bind, hadd,
    okOr_some, ok_bind, slice_part hpayload (by simp [hcursor]) rfl, okOr_some, ok_bind,
    RecordBuilder.length_encode]
  have hstop : cursor + 4 + 4 + field.payload.length = cursor + (field.payload.length + 8) := by
    omega
  rw [hstop]
  rfl

/-- All fields are parsed from where they were written. -/
lemma parseFields_encode {fields : List ParsedField} {pre post : List UInt8} {cursor : ℕ}
    {prev : Option FieldId} (hbytes : input.bytes = pre ++ (fields.flatMap ParsedField.encode ++ post))
    (hcursor : pre.length = cursor) (hfit : ∀ field ∈ fields, field.payload.length < 2 ^ 32)
    (hle : ∀ field ∈ fields, field.payload.length ≤ limits.maxPayloadLen)
    (hchain : (prev.toList ++ fields.map ParsedField.fieldId).IsChain (· < ·)) :
    parseFields input limits fields.length cursor prev
      = .ok (fields, cursor + (fields.flatMap ParsedField.encode).length) := by
  induction fields generalizing pre cursor prev with
  | nil => rfl
  | cons field fields ih =>
      rw [List.forall_mem_cons] at hfit hle
      rw [List.flatMap_cons, List.append_assoc] at hbytes
      have hfollows : follows prev field.fieldId := by
        cases prev with
        | none => rfl
        | some prev => exact follows_some.mpr (List.isChain_cons_cons.mp hchain).1
      have hchain' : ((some field.fieldId).toList ++ fields.map ParsedField.fieldId).IsChain
          (· < ·) := by
        cases prev with
        | none => exact hchain
        | some prev => exact (List.isChain_cons_cons.mp hchain).2
      have hnext : input.bytes = (pre ++ field.encode) ++
          (fields.flatMap ParsedField.encode ++ post) := by
        rw [hbytes, List.append_assoc]
      have hcursor' : (pre ++ field.encode).length = cursor + field.encode.length := by
        rw [List.length_append, hcursor]
      rw [List.length_cons, parseFields,
        parseField_encode hbytes hcursor hfit.1 hle.1 hfollows, ok_bind]
      dsimp only
      rw [ih hnext hcursor' hfit.2 hle.2 hchain', ok_bind, List.flatMap_cons, List.length_append,
        Nat.add_assoc]
      rfl

/-- A field of the header is read from where it was written. -/
lemma headerField_part {pre post : List UInt8} {start width n : ℕ}
    (hbytes : input.bytes = pre ++ (leBytes width n ++ post)) (hstart : pre.length = start)
    (hn : n < 256 ^ width) : headerField input start width = .ok n := by
  have hslice : slice input.bytes start (start + width) = some (leBytes width n) :=
    slice_part hbytes hstart (by rw [length_leBytes])
  rw [headerField, hslice, orPanic_some, ok_bind, leNat_leBytes hn]
  rfl

lemma toDigest_toList (digest : Digest) : toDigest digest.toList = some digest := by
  obtain ⟨bytes, hbytes⟩ := digest
  rw [toDigest, dif_pos (by simpa using hbytes)]
  rfl

namespace RecordBuilder

variable {schemaVersion : UInt32} {b : RecordBuilder}

/-- The root that `finish` writes. -/
def root (blake3 : List UInt8 → Digest) (b : RecordBuilder) : Digest :=
  schemaRoot blake3 b.schemaVersion
    (merkleRoot (nodeHash blake3) (merkleLeaves blake3 b.fields))

lemma length_finish {blake3 : List UInt8 → Digest} {bytes : List UInt8}
    (hb : Invariant schemaVersion limits b) (h : b.finish blake3 = .ok bytes) :
    bytes.length = b.encodedLen := by
  cases h
  have hmagic : magic.length = 4 := rfl
  have hheader : headerLen = 16 := rfl
  have hauth : authLen = 32 := rfl
  rw [hb.encodedLen_eq]
  simp only [List.length_append, length_leBytes, hmagic, Vector.length_toList]
  omega

/-- A record that fits is parsed as it was built. -/
lemma parse_finish {blake3 : List UInt8 → Digest} (hb : Invariant schemaVersion limits b)
    (h : b.finish blake3 = .ok input.bytes) (hfit : FieldsFit b.fields)
    (hroom : b.fields = [] → headerLen + authLen ≤ limits.maxRecordLen) :
    Record.parse input limits = .ok ⟨b.schemaVersion, b.fields, b.root blake3⟩ := by
  have hlen := length_finish hb h
  have hencoded := hb.encodedLen_eq
  have hmax : input.bytes.length ≤ limits.maxRecordLen := by
    rw [hlen]
    by_cases hempty : b.fields = []
    · rw [hencoded, hempty]
      exact hroom hempty
    · exact hb.record_le hempty
  rw [finish, Nat.mod_eq_of_lt hfit.1] at h
  have hbytes := (Outcome.ok.inj h).symm
  -- the header, cut in front of each of its fields
  have h₁ : input.bytes = magic ++ (leBytes 2 formatVersion ++ _) := hbytes
  have h₂ : input.bytes = (magic ++ leBytes 2 formatVersion) ++ (leBytes 2 flagMerkle ++ _) :=
    regroup h₁
  have h₃ : input.bytes = (magic ++ leBytes 2 formatVersion ++ leBytes 2 flagMerkle) ++
      (leBytes 4 b.fields.length ++ _) := regroup h₂
  have h₄ : input.bytes = (magic ++ leBytes 2 formatVersion ++ leBytes 2 flagMerkle ++
      leBytes 4 b.fields.length) ++ (leBytes 4 b.schemaVersion.toNat ++ _) := regroup h₃
  have h₅ : input.bytes = (magic ++ leBytes 2 formatVersion ++ leBytes 2 flagMerkle ++
      leBytes 4 b.fields.length ++ leBytes 4 b.schemaVersion.toNat) ++
      (b.fields.flatMap ParsedField.encode ++ (b.root blake3).toList) := regroup h₄
  have h₆ : input.bytes = (magic ++ leBytes 2 formatVersion ++ leBytes 2 flagMerkle ++
      leBytes 4 b.fields.length ++ leBytes 4 b.schemaVersion.toNat ++
      b.fields.flatMap ParsedField.encode) ++ ((b.root blake3).toList ++ []) := by
    rw [List.append_nil]
    exact regroup h₅
  have hchain : ((none : Option FieldId).toList ++ b.fields.map ParsedField.fieldId).IsChain
      (· < ·) := (List.pairwise_map.mpr hb.increasing).isChain
  have hfields : parseFields input limits b.fields.length headerLen none = _ :=
    parseFields_encode h₅ rfl hfit.2 hb.payload_le hchain
  have hmagic : input.bytes.take 4 = magic := by rw [h₁]; rfl
  have hstop : headerLen + (b.fields.flatMap ParsedField.encode).length + authLen
      = input.bytes.length := by
    rw [hlen, hencoded]
    omega
  have hroot : slice input.bytes (headerLen + (b.fields.flatMap ParsedField.encode).length)
      (headerLen + (b.fields.flatMap ParsedField.encode).length + authLen)
        = some (b.root blake3).toList :=
    slice_part h₆ (by rw [List.length_append]; rfl) (by rw [Vector.length_toList]; rfl)
  have hversion : headerField input 4 2 = .ok formatVersion :=
    headerField_part h₁ rfl (by decide)
  have hflags : headerField input 6 2 = .ok flagMerkle := headerField_part h₂ rfl (by decide)
  have hcount : headerField input 8 4 = .ok b.fields.length := headerField_part h₃ rfl hfit.1
  have hschema : headerField input 12 4 = .ok b.schemaVersion.toNat :=
    headerField_part h₄ rfl b.schemaVersion.toNat_lt
  rw [Record.parse, parseRecord, require_of hmax, ok_bind, require_of (by omega), ok_bind,
    require_of hmagic, ok_bind, hversion, ok_bind, require_of rfl, ok_bind, hflags, ok_bind,
    require_of rfl, ok_bind, hcount, ok_bind, hschema, ok_bind]
  dsimp only
  rw [require_of hb.count_le, ok_bind, hfields, ok_bind]
  dsimp only
  rw [hroot, okOr_some, ok_bind, require_of hstop, ok_bind, toDigest_toList, okOr_some, ok_bind,
    UInt32.ofNat_toNat]
  rfl

end RecordBuilder

/-! ## What the parser says about lengths -/

lemma payload_lt_of_parseFields {count cursor : ℕ} {prev : Option FieldId}
    {out : List ParsedField × ℕ} (h : parseFields input limits count cursor prev = .ok out) :
    ∀ field ∈ out.1, field.payload.length < 2 ^ 32 := by
  induction count generalizing cursor prev out with
  | zero =>
      cases h
      simp
  | succ count ih =>
      obtain ⟨⟨field, next⟩, hfield, h⟩ := bind_eq_ok.mp h
      obtain ⟨⟨rest, stop⟩, hrest, h⟩ := bind_eq_ok.mp h
      cases h
      refine List.forall_mem_cons.mpr ⟨?_, ih hrest⟩
      obtain ⟨id, _, hfield⟩ := bind_eq_ok.mp hfield
      obtain ⟨len, _, hfield⟩ := bind_eq_ok.mp hfield
      obtain ⟨_, _, hfield⟩ := bind_eq_ok.mp hfield
      obtain ⟨_, _, hfield⟩ := bind_eq_ok.mp hfield
      obtain ⟨payloadEnd, hend, hfield⟩ := bind_eq_ok.mp hfield
      obtain ⟨payload, hpayload, hfield⟩ := bind_eq_ok.mp hfield
      cases hfield
      rw [okOr_eq_ok, checkedAdd, Option.ite_none_right_eq_some, Option.some.injEq] at hend
      have hlen := slice_length (okOr_eq_ok.mp hpayload)
      have hlt := len.1.toNat_lt
      dsimp only at hlen hend ⊢
      omega

/-- A parsed record fits into the words of the header, and the limit has room for it. -/
lemma fieldsFit_of_parse {record : Record} (h : Record.parse input limits = .ok record) :
    FieldsFit record.fields ∧ input.bytes.length ≤ limits.maxRecordLen := by
  refine ⟨⟨(canonical_of_parse h).length_lt, ?_⟩, ?_⟩
  · rw [Record.parse, parseRecord] at h
    iterate 9
      obtain ⟨_, _, h⟩ := bind_eq_ok.mp h
    obtain ⟨_, _, h⟩ := bind_eq_ok.mp h
    obtain ⟨⟨fields, cursor⟩, hfields, h⟩ := bind_eq_ok.mp h
    iterate 3
      obtain ⟨_, _, h⟩ := bind_eq_ok.mp h
    cases h
    exact payload_lt_of_parseFields hfields
  · rw [Record.parse, parseRecord] at h
    obtain ⟨_, hmax, _⟩ := bind_eq_ok.mp h
    exact require_eq_ok.mp hmax

/-! ## The round trip -/

/-- `finish` writes as many bytes as were counted, and they are parsed under the same limits as
the fields that were inserted, with a root that is verified. -/
def RoundTrips (blake3 : List UInt8 → Digest) (limits : ProjectionLimits) (schemaVersion : UInt32)
    (inserted : List ParsedField) (b : RecordBuilder) : Prop :=
  ∃ input : Input, b.finish blake3 = .ok input.bytes ∧ input.bytes.length = b.encodedLen ∧
    ∃ record, Record.parse input limits = .ok record ∧ record.schemaVersion = schemaVersion ∧
      record.fields = inserted ∧ record.fields.Pairwise (fun f g => f.fieldId < g.fieldId) ∧
      record.verifyRoot blake3 = .ok ()

/-- **The builder and the parser.**  What `finish` writes is parsed as it was built, exactly if the
empty record has room under the limit for records, and the number of fields and the lengths of the
payloads fit into 32 bits. -/
theorem finish_parses_iff (blake3 : List UInt8 → Digest) {limits : ProjectionLimits}
    {schemaVersion : UInt32} {inserted : List ParsedField} {b : RecordBuilder}
    (h : (RecordBuilder.withLimits schemaVersion limits).insertAll inserted = .ok b) :
    RoundTrips blake3 limits schemaVersion inserted b ↔
      (inserted = [] → headerLen + authLen ≤ limits.maxRecordLen) ∧ FieldsFit inserted := by
  obtain ⟨hb, hfields⟩ :=
    (RecordBuilder.invariant_withLimits schemaVersion limits).insertAll h
  change b.fields = [] ++ inserted at hfields
  rw [List.nil_append] at hfields
  constructor
  · rintro ⟨input, hfinish, hlen, record, hparse, -, hsame, -, -⟩
    obtain ⟨hfit, hmax⟩ := fieldsFit_of_parse hparse
    refine ⟨fun hempty => ?_, hsame ▸ hfit⟩
    rw [hlen, hb.encodedLen_eq, hfields, hempty] at hmax
    exact hmax
  · rintro ⟨hroom, hfit⟩
    obtain ⟨bytes, hfinish⟩ : ∃ bytes, b.finish blake3 = .ok bytes := ⟨_, rfl⟩
    have hlen := RecordBuilder.length_finish hb hfinish
    obtain ⟨input, rfl⟩ : ∃ input : Input, input.bytes = bytes :=
      ⟨⟨bytes, hlen ▸ hb.encodedLen_le⟩, rfl⟩
    have hparse := RecordBuilder.parse_finish hb hfinish (hfields ▸ hfit) (hfields ▸ hroom)
    refine ⟨input, hfinish, hlen, _, hparse, hb.schemaVersion_eq, hfields, hb.increasing, ?_⟩
    rw [Record.verifyRoot]
    exact require_of rfl

/-- A record of one field of one byte. -/
theorem finish_parses_iff_one :
    RoundTrips Hash.digest ProjectionLimits.new 7 [⟨1, [5]⟩] ⟨7, .new, [⟨1, [5]⟩], 57⟩ ↔
      (([⟨1, [5]⟩] : List ParsedField) = [] →
        headerLen + authLen ≤ ProjectionLimits.new.maxRecordLen) ∧ FieldsFit [⟨1, [5]⟩] :=
  finish_parses_iff Hash.digest rfl

/-- The limits that let everything pass. -/
def openLimits : ProjectionLimits := ⟨u64Max, u64Max, u64Max⟩

/-- A payload of `2 ^ 32` bytes, whose length is written as zero. -/
def longField : ParsedField := ⟨1, List.replicate (2 ^ 32) 0⟩

lemma length_longField : longField.payload.length = 2 ^ 32 := List.length_replicate

lemma insert_long {field : ParsedField} (h : field.payload.length = 2 ^ 32) :
    (RecordBuilder.withLimits 7 openLimits).insertAll [field]
      = .ok ⟨7, openLimits, [field], headerLen + authLen + (2 ^ 32 + 8)⟩ := by
  have hadd : checkedAdd field.payload.length 8 = some (2 ^ 32 + 8) := by
    rw [h]
    decide
  have hle : field.payload.length
      ≤ (RecordBuilder.withLimits 7 openLimits).limits.maxPayloadLen := by
    rw [h]
    decide
  have horder : (RecordBuilder.withLimits 7 openLimits).checkOrder field.fieldId = .ok () := rfl
  have hcount : (RecordBuilder.withLimits 7 openLimits).fields.length + 1
      ≤ (RecordBuilder.withLimits 7 openLimits).limits.maxFields := by decide
  have hsum : checkedAdd (RecordBuilder.withLimits 7 openLimits).encodedLen (2 ^ 32 + 8)
      = some (headerLen + authLen + (2 ^ 32 + 8)) := by decide
  have hrecord : headerLen + authLen + (2 ^ 32 + 8)
      ≤ (RecordBuilder.withLimits 7 openLimits).limits.maxRecordLen := by decide
  rw [RecordBuilder.insertAll, RecordBuilder.insert, horder, ok_bind, require_of hcount, ok_bind,
    require_of hle, ok_bind, hadd, okOr_some, ok_bind, hsum, okOr_some, ok_bind,
    require_of hrecord, ok_bind]
  rfl

/-- The empty record does not fit under a limit of 47 bytes, and a long payload is inserted though
its length does not fit. -/
theorem unparsed :
    ((RecordBuilder.withLimits 7 ⟨0, 0, 47⟩).insertAll []
        = .ok (RecordBuilder.withLimits 7 ⟨0, 0, 47⟩) ∧
      ¬ RoundTrips Hash.digest ⟨0, 0, 47⟩ 7 [] (RecordBuilder.withLimits 7 ⟨0, 0, 47⟩)) ∧
    ∃ b, (RecordBuilder.withLimits 7 openLimits).insertAll [longField] = .ok b ∧
      ¬ RoundTrips Hash.digest openLimits 7 [longField] b := by
  refine ⟨⟨rfl, ?_⟩, ?_⟩
  · rintro ⟨input, -, hlen, record, hparse, -⟩
    have hmax := (fieldsFit_of_parse hparse).2
    rw [hlen] at hmax
    exact absurd hmax (by decide)
  · refine ⟨_, insert_long length_longField, ?_⟩
    rintro ⟨input, -, -, record, hparse, -, hsame, -⟩
    have hfit := (fieldsFit_of_parse hparse).1.2 longField (by
      rw [hsame]
      exact List.mem_cons_self)
    rw [length_longField] at hfit
    exact absurd hfit (Nat.lt_irrefl _)

end RustBinary.Projections
