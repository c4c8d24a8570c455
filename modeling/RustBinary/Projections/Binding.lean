import RustBinary.Projections.Soundness

/-!
# What the root binds

Neither the number of fields nor the height of the tree is hashed, but a record is determined
by its root all the same: the bytes of an accepted record are those that `finish` lays out for
its fields (`bytes_of_parse`), and a hash without collisions tells leaves, nodes and padding
apart, so that two trees with one root have the same height and the same leaves
(`fields_eq_of_root_eq`).
-/

namespace RustBinary.Projections

open Lib Lib.Outcome Lib.HeapTree

/-! ## The bytes of a record -/

/-- A field as `RecordBuilder::finish` writes it. -/
def encodeField (field : ParsedField) : List UInt8 :=
  leBytes 4 field.fieldId.toNat ++ (leBytes 4 field.payload.length ++ field.payload)

/-- The layout of `RecordBuilder::finish`. -/
def Record.toBytes (record : Record) : List UInt8 :=
  magic ++ leBytes 2 formatVersion ++ leBytes 2 flagMerkle ++ leBytes 4 record.fields.length ++
    leBytes 4 record.schemaVersion.toNat ++ record.fields.flatMap encodeField ++ record.root.toList

/-- The little-endian bytes of a slice are the slice. -/
lemma slice_leBytes {input : Input} {start stop width : ℕ} {bytes : List UInt8}
    (h : slice input.bytes start stop = some bytes) (hwidth : stop = start + width) :
    slice input.bytes start stop = some (leBytes width (leNat bytes)) := by
  have hlen : bytes.length = width := by
    rw [slice_length h]
    omega
  rw [h, ← hlen, leBytes_leNat]

lemma readU32_eq_ok {input : Input} {cursor stop : ℕ} {value : UInt32}
    (h : readU32 input cursor = .ok (value, stop)) :
    slice input.bytes cursor stop = some (leBytes 4 value.toNat) := by
  obtain ⟨stop', hstop, h⟩ := bind_eq_ok.mp h
  obtain ⟨bytes, hbytes, h⟩ := bind_eq_ok.mp h
  cases h
  have hslice := okOr_eq_ok.mp hbytes
  have hadd := okOr_eq_ok.mp hstop
  rw [checkedAdd] at hadd
  split at hadd
  · obtain rfl := Option.some.inj hadd
    have hlt : leNat bytes < 2 ^ 32 := by
      have := leNat_lt bytes
      rwa [slice_length hslice, Nat.add_sub_cancel_left] at this
    rw [UInt32.toNat_ofNat_of_lt' hlt]
    exact slice_leBytes hslice rfl
  · simp at hadd

/-- A field that has been read is spelled as it is written. -/
lemma slice_of_parseField {input : Input} {limits : ProjectionLimits} {cursor stop : ℕ}
    {prev : Option FieldId} {field : ParsedField}
    (h : parseField input limits cursor prev = .ok (field, stop)) :
    slice input.bytes cursor stop = some (encodeField field) := by
  obtain ⟨⟨id, c₁⟩, hid, h⟩ := bind_eq_ok.mp h
  obtain ⟨⟨len, c₂⟩, hlen, h⟩ := bind_eq_ok.mp h
  obtain ⟨_, _, h⟩ := bind_eq_ok.mp h
  obtain ⟨_, _, h⟩ := bind_eq_ok.mp h
  obtain ⟨payloadEnd, hend, h⟩ := bind_eq_ok.mp h
  obtain ⟨payload, hpayload, h⟩ := bind_eq_ok.mp h
  cases h
  have hslice := okOr_eq_ok.mp hpayload
  have hadd := okOr_eq_ok.mp hend
  rw [checkedAdd] at hadd
  split at hadd
  · obtain rfl := Option.some.inj hadd
    have hpayloadLen : payload.length = len.toNat := by
      rw [slice_length hslice, Nat.add_sub_cancel_left]
    have hlen' := readU32_eq_ok hlen
    rw [← hpayloadLen] at hlen'
    exact slice_join (readU32_eq_ok hid) (slice_join hlen' hslice)
  · simp at hadd

lemma slice_of_parseFields {input : Input} {limits : ProjectionLimits} {count cursor stop : ℕ}
    {prev : Option FieldId} {fields : List ParsedField} (hcursor : cursor ≤ input.bytes.length)
    (h : parseFields input limits count cursor prev = .ok (fields, stop)) :
    slice input.bytes cursor stop = some (fields.flatMap encodeField) := by
  induction count generalizing cursor prev fields with
  | zero =>
      cases h
      exact slice_eq_some.mpr ⟨Nat.le_refl _, hcursor, by simp⟩
  | succ count ih =>
      obtain ⟨⟨field, next⟩, hfield, h⟩ := bind_eq_ok.mp h
      obtain ⟨⟨rest, stop'⟩, hrest, h⟩ := bind_eq_ok.mp h
      cases h
      have hone := slice_of_parseField hfield
      rw [List.flatMap_cons]
      exact slice_join hone (ih (slice_eq_some.mp hone).2.1 hrest)

lemma slice_of_headerField {input : Input} {start width n : ℕ}
    (h : headerField input start width = .ok n) :
    slice input.bytes start (start + width) = some (leBytes width n) := by
  obtain ⟨bytes, hbytes, h⟩ := bind_eq_ok.mp h
  cases h
  exact slice_leBytes (orPanic_eq_ok.mp hbytes) rfl

lemma toDigest_eq_some {bytes : List UInt8} {digest : Digest} (h : toDigest bytes = some digest) :
    bytes = digest.toList := by
  rw [toDigest] at h
  split at h
  · rw [← Option.some.inj h]
    rfl
  · simp at h

/-- The bytes of an accepted record are those of its fields: the layout leaves no choice. -/
lemma bytes_of_parse {input : Input} {limits : ProjectionLimits} {record : Record}
    (h : Record.parse input limits = .ok record) : input.bytes = record.toBytes := by
  obtain ⟨_, _, h⟩ := bind_eq_ok.mp h
  obtain ⟨_, hlen, h⟩ := bind_eq_ok.mp h
  obtain ⟨_, hmagic, h⟩ := bind_eq_ok.mp h
  obtain ⟨version, hversion, h⟩ := bind_eq_ok.mp h
  obtain ⟨_, hformat, h⟩ := bind_eq_ok.mp h
  obtain ⟨flags, hflags, h⟩ := bind_eq_ok.mp h
  obtain ⟨_, hmerkle, h⟩ := bind_eq_ok.mp h
  obtain ⟨count, hcount, h⟩ := bind_eq_ok.mp h
  obtain ⟨schemaVersion, hschema, h⟩ := bind_eq_ok.mp h
  obtain ⟨_, _, h⟩ := bind_eq_ok.mp h
  obtain ⟨⟨fields, cursor⟩, hfields, h⟩ := bind_eq_ok.mp h
  obtain ⟨rootBytes, hrootBytes, h⟩ := bind_eq_ok.mp h
  obtain ⟨_, hstop, h⟩ := bind_eq_ok.mp h
  obtain ⟨root, hroot, h⟩ := bind_eq_ok.mp h
  cases h
  have hlen := require_eq_ok.mp hlen
  have hstop := require_eq_ok.mp hstop
  obtain rfl : version = formatVersion := require_eq_ok.mp hformat
  obtain rfl : flags = flagMerkle := require_eq_ok.mp hmerkle
  obtain rfl := (parseFields_eq_ok hfields).1
  have hschemaLt : schemaVersion < 2 ^ 32 := headerField_lt hschema
  have hmagicSlice : slice input.bytes 0 4 = some magic := by
    simp only [headerLen, authLen] at hlen
    exact slice_eq_some.mpr ⟨by decide, by omega, require_eq_ok.mp hmagic⟩
  have hbody := slice_of_parseFields (by rw [headerLen, authLen] at *; omega) hfields
  have hrootSlice := okOr_eq_ok.mp hrootBytes
  rw [toDigest_eq_some (okOr_eq_ok.mp hroot), hstop] at hrootSlice
  have hall := slice_join (slice_join (slice_join (slice_join (slice_join (slice_join hmagicSlice
    (slice_of_headerField hversion)) (slice_of_headerField hflags)) (slice_of_headerField hcount))
    (slice_of_headerField hschema)) hbody) hrootSlice
  rw [slice_self] at hall
  rw [Option.some.inj hall, Record.toBytes]
  simp only [UInt32.toNat_ofNat_of_lt' hschemaLt]

/-! ## Two trees with one root -/

section Roots

variable {blake3 : List UInt8 → Digest} {a b : Record} {inputs : List (List UInt8)}

/-- The height of the tree is bound: a leaf of one tree is not a node of the other. -/
lemma height_le {h k : ℕ} (hf : CollisionFree blake3 inputs) (ha : a.hashInputs blake3 ⊆ inputs)
    (hb : b.hashInputs blake3 ⊆ inputs) (hh : leafCount a.fields.length = 2 ^ h)
    (hk : leafCount b.fields.length = 2 ^ k)
    (heq : ∀ d, d ≤ h → d ≤ k → ∀ i ∈ level d,
      recordLabel blake3 a.fields i = recordLabel blake3 b.fields i) : k ≤ h := by
  refine Nat.le_of_not_lt fun hlt => ?_
  have hmem : 2 ^ h ∈ level h := ⟨Nat.le_refl _, by rw [pow_succ]; have := Nat.two_pow_pos h; omega⟩
  have hbelow : 2 ^ h < 2 ^ k := Nat.pow_lt_pow_right (by decide) hlt
  have hnode := isTree_recordLabel blake3 hk (2 ^ h) (Nat.two_pow_pos h) hbelow
  have hinput := hb (nodeInput_mem_hashInputs hk (Nat.two_pow_pos h) hbelow)
  have hlabel := (heq h (Nat.le_refl h) hlt.le _ hmem).trans hnode
  rcases recordLabel_leaf blake3 a.fields (j := 0) (by rw [hh]; exact Nat.two_pow_pos h) with
    ⟨field, hfield, hleaf⟩ | ⟨-, hzero⟩
  · rw [hh, Nat.add_zero, hlabel] at hleaf
    exact hf.node_ne_leaf hinput (ha (leafInput_mem_hashInputs (List.mem_of_getElem? hfield))) hleaf
  · rw [hh, Nat.add_zero, hlabel] at hzero
    exact hf.nonzero _ hinput hzero

/-- Records whose trees have one root have the same fields. -/
lemma fields_eq_of_root_eq (hf : CollisionFree blake3 inputs) (ha : a.hashInputs blake3 ⊆ inputs)
    (hb : b.hashInputs blake3 ⊆ inputs)
    (hroot : recordLabel blake3 a.fields 1 = recordLabel blake3 b.fields 1) :
    a.fields = b.fields := by
  obtain ⟨h, hh⟩ := exists_leafCount a.fields.length
  obtain ⟨k, hk⟩ := exists_leafCount b.fields.length
  have heq := labels_eq_of_root_eq (isTree_recordLabel blake3 hh) (isTree_recordLabel blake3 hk)
    hroot fun p hp hlt hlt' hnode => hf.node_inj (ha (nodeInput_mem_hashInputs hh hp hlt))
      (hb (nodeInput_mem_hashInputs hk hp hlt')) hnode
  obtain rfl : h = k := Nat.le_antisymm
    (height_le hf hb ha hk hh fun d hd hd' i hi => (heq d hd' hd i hi).symm)
    (height_le hf ha hb hh hk heq)
  -- leaf by leaf: fields have different hashes, and the padding is no hash at all
  refine List.ext_getElem? fun j => ?_
  rcases Nat.lt_or_ge j (2 ^ h) with hj | hj
  · have hmem : 2 ^ h + j ∈ level h := ⟨Nat.le_add_right _ _, by rw [pow_succ]; omega⟩
    have hlabel := heq h (Nat.le_refl h) (Nat.le_refl h) _ hmem
    rcases recordLabel_leaf blake3 a.fields (hh.symm ▸ hj) with ⟨f, hfa, hla⟩ | ⟨hna, hla⟩ <;>
      rcases recordLabel_leaf blake3 b.fields (hk.symm ▸ hj) with ⟨g, hgb, hlb⟩ | ⟨hnb, hlb⟩ <;>
      rw [hh] at hla <;> rw [hk] at hlb <;> rw [hla, hlb] at hlabel
    · obtain ⟨hid, hpayload⟩ := hf.leaf_inj
        (ha (leafInput_mem_hashInputs (List.mem_of_getElem? hfa)))
        (hb (leafInput_mem_hashInputs (List.mem_of_getElem? hgb))) hlabel
      rw [hfa, hgb, Option.some.injEq]
      cases f
      cases g
      simp only at hid hpayload
      rw [hid, hpayload]
    · exact absurd hlabel
        (hf.nonzero _ (ha (leafInput_mem_hashInputs (List.mem_of_getElem? hfa))))
    · exact absurd hlabel.symm
        (hf.nonzero _ (hb (leafInput_mem_hashInputs (List.mem_of_getElem? hgb))))
    · rw [hna, hnb]
  · have hale := le_leafCount a.fields.length
    have hble := le_leafCount b.fields.length
    rw [List.getElem?_eq_none (by omega), List.getElem?_eq_none (by omega)]

end Roots

/-- **Binding.** Two accepted records with one root, each of which recomputes it, are the same
byte string. -/
theorem bytes_eq_of_root_eq {blake3 : List UInt8 → Digest} {input₁ input₂ : Input}
    {limits₁ limits₂ : ProjectionLimits} {record₁ record₂ : Record}
    (hparse₁ : Record.parse input₁ limits₁ = .ok record₁)
    (hparse₂ : Record.parse input₂ limits₂ = .ok record₂)
    (hverify₁ : record₁.verifyRoot blake3 = .ok ()) (hverify₂ : record₂.verifyRoot blake3 = .ok ())
    (hf : CollisionFree blake3 (record₁.hashInputs blake3 ++ record₂.hashInputs blake3))
    (hroot : record₁.root = record₂.root) :
    input₁.bytes = input₂.bytes ∧ record₁ = record₂ := by
  have hschema : schemaRoot blake3 record₁.schemaVersion (recordLabel blake3 record₁.fields 1)
      = schemaRoot blake3 record₂.schemaVersion (recordLabel blake3 record₂.fields 1) := by
    rw [verifyRoot_eq_ok_iff.mp hverify₁, verifyRoot_eq_ok_iff.mp hverify₂, hroot]
  obtain ⟨hversion, hmerkle⟩ := schemaInput_inj (hf.injective _
    (List.mem_append_left _ schemaInput_mem_hashInputs) _
    (List.mem_append_right _ schemaInput_mem_hashInputs) hschema)
  have hfields := fields_eq_of_root_eq hf (List.subset_append_left _ _)
    (List.subset_append_right _ _) hmerkle
  have hrecord : record₁ = record₂ := by
    cases record₁
    cases record₂
    simp only at hversion hfields hroot
    rw [hversion, hfields, hroot]
  rw [bytes_of_parse hparse₁, bytes_of_parse hparse₂, hrecord]
  exact ⟨rfl, rfl⟩

/-- The bytes of the record with two fields, laid out again. -/
def sampleCopy : Input := ⟨sampleRecord.toBytes, by decide⟩

lemma sampleCopy_parse : Record.parse sampleCopy ⟨2, 1, 66⟩ = .ok sampleRecord := by
  decide +kernel

lemma sample_collisionFree_self : CollisionFree sampleHash
    (sampleRecord.hashInputs sampleHash ++ sampleRecord.hashInputs sampleHash) :=
  ⟨by decide +kernel, by decide +kernel⟩

theorem bytes_eq_of_root_eq_sample :
    sampleInput.bytes = sampleRecord.toBytes ∧ sampleRecord = sampleRecord :=
  bytes_eq_of_root_eq sample_parse sampleCopy_parse sample_verifyRoot sample_verifyRoot
    sample_collisionFree_self rfl

end RustBinary.Projections
