import RustBinary.Archive.Reach
import RustBinary.Archive.Validate

/-!
# Reader and validator

The validator rounds the position of a body up within the payload, and the reader rounds its
address.  Both find the same elements, at an aligned address, exactly if the alignment of the
elements divides the address of the payload (`elementAddress_iff`); the validator tests the
alignment of the root only.
-/

namespace RustBinary.Archive

open Lib Lib.Outcome

variable {env : ℕ → Fields} {root : Fields}

/-- What the `Archive` derive gives to the validator for the struct `root`. -/
def archiveSchema (env : ℕ → Fields) (root : Fields) (schemaId : UInt64) : Schema where
  schemaId := schemaId
  alignment := root.align
  checkAt := fun payload => checkArchive env root payload payload.length

/-- The address of the elements in `as_slice_unchecked`, for the pointer at the position
`fieldPos` of a payload at the address `base`. -/
def sliceAddress (base : ℕ) (payload : List UInt8) (align fieldPos : ℕ) : Option ℕ := do
  let data ← resolve payload fieldPos
  some (roundUp (base + data + 4) align)

/-- There is a pointer to a vector at the position `fieldPos` that is reached from the root, with
the size and the alignment of its elements. -/
def VecField (env : ℕ → Fields) (payload : List UInt8) (root : Fields)
    (fieldPos size align : ℕ) : Prop :=
  ∃ fs mirror p offset, Reaches env payload root fs mirror ∧
    (.pointer p, offset) ∈ fs.parts 0 ∧ p.element env = some (size, align) ∧
    fieldPos = mirror + offset

/-- The reader finds the elements at the position that the validator has checked, and they are
aligned there. -/
def SameElements (base : ℕ) (payload : List UInt8) (fieldPos size align : ℕ) : Prop :=
  ∃ elements count, checkVecBody payload fieldPos size align = .ok (count, elements) ∧
    sliceAddress base payload align fieldPos = some (base + elements) ∧ align ∣ base + elements

lemma isAlign_element {p : Pointer} {size align : ℕ} (h : p.element env = some (size, align)) :
    IsAlign align := by
  cases p with
  | string => cases h
  | vecScalar s =>
      cases h
      exact s.isAlign_size
  | vecStruct i =>
      cases h
      exact (env i).isAlign_align

/-- A checked vector has a body that was checked. -/
lemma Pointer.body_of_check {payload : List UInt8} {check : ℕ → ℕ → Outcome String Unit}
    {p : Pointer} {fieldPos size align : ℕ}
    (h : p.check env payload check fieldPos = .ok ()) (helement : p.element env = some (size, align)) :
    ∃ elements count, checkVecBody payload fieldPos size align = .ok (count, elements) := by
  cases p with
  | string => cases helement
  | vecScalar s =>
      cases helement
      obtain ⟨⟨count, elements⟩, hbody, -⟩ := bind_eq_ok.mp h
      exact ⟨elements, count, hbody⟩
  | vecStruct i =>
      cases helement
      obtain ⟨⟨count, elements⟩, hbody, -⟩ := bind_eq_ok.mp h
      exact ⟨elements, count, hbody⟩

/-- The reader and the validator agree on one vector. -/
lemma sameElements_iff {base : ℕ} {payload : List UInt8} {fieldPos size align elements count : ℕ}
    (halign : IsAlign align)
    (hbody : checkVecBody payload fieldPos size align = .ok (count, elements)) :
    SameElements base payload fieldPos size align ↔ align ∣ base := by
  obtain ⟨hread, -, -⟩ := of_checkVecBody hbody
  rw [readVec, Option.bind_eq_bind, Option.bind_eq_some_iff] at hread
  obtain ⟨data, hresolve, hread⟩ := hread
  obtain ⟨count', -, hread⟩ := Option.bind_eq_some_iff.mp hread
  cases hread
  constructor
  · rintro ⟨elements, count', hbody', -, hdvd⟩
    cases hbody.symm.trans hbody'
    exact (Nat.dvd_add_iff_left (dvd_roundUp halign.pos)).mpr hdvd
  · intro hbase
    refine ⟨_, _, hbody, ?_, Nat.dvd_add hbase (dvd_roundUp halign.pos)⟩
    rw [sliceAddress, hresolve, Option.bind_eq_bind, Option.bind_some, Nat.add_assoc,
      roundUp_add _ _ hbase]

/-- The structural check of a validated archive. -/
lemma checkAt_of_validateArchive {blake3 : List UInt8 → Digest} {schema : Schema} {base : ℕ}
    {file : Input} {limits : ArchiveLimits} : ∀ out,
    validateArchive blake3 schema base file limits = .ok out → ∀ payload,
      slice file.bytes out.2.1.1 out.2.1.2 = some payload → schema.checkAt payload = .ok () := by
  rw [validateArchive]
  iterate 4 refine forall_bind_eq_ok fun _ _ => ?_
  refine forall_bind_eq_ok fun ranges _ => ?_
  refine forall_bind_eq_ok fun payload hpayload => ?_
  iterate 10 refine forall_bind_eq_ok fun _ _ => ?_
  refine forall_bind_eq_ok fun _ hcheck => ?_
  rintro out ⟨⟩ payload' hpayload'
  obtain rfl : payload' = payload :=
    Option.some.inj (hpayload'.symm.trans (orPanic_eq_ok.mp hpayload))
  cases hout : schema.checkAt payload' with
  | ok u => rfl
  | err e =>
      rw [hout] at hcheck
      cases hcheck
  | panic =>
      rw [hout] at hcheck
      cases hcheck
  | diverge =>
      rw [hout] at hcheck
      cases hcheck

/-- **Element addresses.**  In a validated archive the reader finds the elements of every vector
that is reached from the root where the validator has checked them, and aligned, exactly if the
alignments of all these elements divide the address of the payload. -/
theorem elementAddress_iff {blake3 : List UInt8 → Digest} {schemaId : UInt64} {base : ℕ}
    {file : Input} {limits : ArchiveLimits} {header : ArchiveHeader}
    {ranges : (ℕ × ℕ) × (ℕ × ℕ)} {payload : List UInt8}
    (hvalid : validateArchive blake3 (archiveSchema env root schemaId) base file limits
      = .ok (header, ranges))
    (hpayload : slice file.bytes ranges.1.1 ranges.1.2 = some payload) :
    (∀ fieldPos size align, VecField env payload root fieldPos size align →
        SameElements (base + ranges.1.1) payload fieldPos size align) ↔
      ∀ fieldPos size align, VecField env payload root fieldPos size align →
        align ∣ base + ranges.1.1 := by
  have hok : checkArchive env root payload payload.length = .ok () :=
    checkAt_of_validateArchive _ hvalid payload hpayload
  refine forall_congr' fun fieldPos => forall_congr' fun size => forall_congr' fun align =>
    imp_congr_right ?_
  rintro ⟨fs, mirror, p, offset, hreach, hpart, helement, rfl⟩
  obtain ⟨hmirror, rounds, hcheck⟩ := hreach.checked hok
  obtain ⟨elements, count, hbody⟩ :=
    Pointer.body_of_check (Fields.check_parts hmirror hcheck hpart) helement
  exact sameElements_iff (isAlign_element helement) hbody

/-! ## A payload at a multiple of four -/

/-- A struct of a `Vec<u64>` alone is aligned to 4. -/
def wordsFields : Fields := .pointer (.vecScalar .u64) .nil

/-- An empty vector: its pointer, and its count. -/
def wordsPayload : List UInt8 := [4, 0, 0, 0, 0, 0, 0, 0]

def wordsRoot : Digest :=
  #v[120, 0, 17, 51, 29, 38, 77, 147, 122, 53, 180, 28, 107, 215, 166, 106, 28, 96, 21, 3, 133, 92,
    51, 41, 182, 158, 201, 97, 9, 102, 59, 120]

/-- The hash on the one block of the payload. -/
def wordsHash (input : List UInt8) : Digest :=
  if input = leafInput 0 wordsPayload then wordsRoot else Vector.replicate 32 0

set_option maxRecDepth 100000 in
example : Hash.digest (leafInput 0 wordsPayload) = wordsRoot := by decide +kernel

def wordsFile : Input where
  bytes := magic ++ [4, 0, 1, 0] ++ leBytes 4 128 ++ leBytes 8 1 ++ leBytes 8 8 ++ leBytes 8 128 ++
    leBytes 8 136 ++ leBytes 4 32 ++ leBytes 8 1 ++ wordsRoot.toList ++ leBytes 8 136 ++
    leBytes 8 0 ++ List.replicate 20 0 ++ wordsPayload
  length_le := by decide +kernel

def wordsHeader : ArchiveHeader where
  schemaId := 1
  payloadLen := 8
  fileLen := 136
  blockSize := 32
  blockCount := 1
  root := wordsRoot
  hashOffset := 136
  hashLen := 0

/-- The file is validated at an address that 4 divides, and 8 does not. -/
lemma words_valid : validateArchive wordsHash (archiveSchema (fun _ => .nil) wordsFields 1) 4
    wordsFile ArchiveLimits.new = .ok (wordsHeader, ((128, 136), (136, 136))) := by
  decide +kernel

theorem elementAddress_iff_words :
    (∀ fieldPos size align, VecField (fun _ => .nil) wordsPayload wordsFields fieldPos size align →
        SameElements (4 + 128) wordsPayload fieldPos size align) ↔
      ∀ fieldPos size align, VecField (fun _ => .nil) wordsPayload wordsFields fieldPos size align →
        align ∣ 4 + 128 :=
  elementAddress_iff words_valid (by decide +kernel)

/-- The validator has checked the elements at the offset 8, which is the address 140; the reader
looks for them at the address 144. -/
theorem words_misread :
    validateArchive wordsHash (archiveSchema (fun _ => .nil) wordsFields 1) 4 wordsFile
        ArchiveLimits.new = .ok (wordsHeader, ((128, 136), (136, 136))) ∧
      VecField (fun _ => .nil) wordsPayload wordsFields 0 8 8 ∧
      checkVecBody wordsPayload 0 8 8 = .ok (0, 8) ∧
      sliceAddress (4 + 128) wordsPayload 8 0 = some 144 ∧ ¬ 8 ∣ 4 + 128 + 8 :=
  ⟨words_valid, ⟨wordsFields, 0, .vecScalar .u64, 0, .root, List.mem_cons_self, rfl, rfl⟩,
    by decide, by decide, by decide⟩

end RustBinary.Archive
