import RustBinary.Archive.Validate
import RustBinary.Core.Slice
import RustBinary.Lib.Layout

/-!
# Building archives

`build` lays out the envelope, the payload and the hashes of its tree, and validates the result like
any other file.  What it has built is accepted again wherever it is aligned, and every range of it
can be proved (`build_iff`).
-/

namespace RustBinary.Archive

open Lib Lib.Outcome

/-- The errors of archives, and those of the serializer. -/
inductive BuildError where
  | archive (error : ArchiveError)
  | serialization (message : String)
deriving DecidableEq, Repr

/-- The fields of an envelope, in order. -/
def headerParts (header : ArchiveHeader) : List (List UInt8) :=
  [magic, leBytes 2 formatVersion, leBytes 2 formatFlags, leBytes 4 headerLen,
    leBytes 8 header.schemaId.toNat, leBytes 8 header.payloadLen.toNat, leBytes 8 payloadOffset,
    leBytes 8 header.fileLen.toNat, leBytes 4 header.blockSize.toNat,
    leBytes 8 header.blockCount.toNat, header.root.toList, leBytes 8 header.hashOffset.toNat,
    leBytes 8 header.hashLen.toNat, List.replicate 20 0]

/-- `encode_header`. -/
def encodeHeader (header : ArchiveHeader) : List UInt8 := (headerParts header).flatten

/-- `OwnedArchive`. -/
structure OwnedArchive where
  bytes : Input
  ranges : (ℕ × ℕ) × (ℕ × ℕ)
  header : ArchiveHeader

/-- The end of `build`: the file of a header, validated. -/
def finishBuild (blake3 : List UInt8 → Digest) (schema : Schema) (base : ℕ)
    (header : ArchiveHeader) (payload hashSection : List UInt8) (limits : ArchiveLimits) :
    Result OwnedArchive := do
  -- the layout of an aligned buffer
  if h : (headerParts header ++ [payload, hashSection]).flatten.length
      ≤ isizeMax - (maxArchiveAlignment - 1) then
    let bytes : Input := ⟨(headerParts header ++ [payload, hashSection]).flatten,
      h.trans (by decide)⟩
    let (_, ranges) ← validateArchive blake3 schema base bytes limits
    pure ⟨bytes, ranges, header⟩
  else panic

/-- `build` of a payload, in a buffer at the address `base`. -/
def buildPayload (blake3 : List UInt8 → Digest) (schema : Schema) (base : ℕ)
    (payload : List UInt8) (limits : ArchiveLimits) : Result OwnedArchive := do
  let (levels, blockCount) ← merkleLevels blake3 payload limits.merkleBlockSize.toNat
  let root ← topHash levels
  let hashSection := serializeHashSection levels
  let hashOffset ← okOr (checkedAdd headerLen payload.length)
    (.sizeLimit limits.maxFileSize u64Max)
  let fileLen ← okOr (checkedAdd hashOffset hashSection.length)
    (.sizeLimit limits.maxFileSize u64Max)
  checkSizeLimit fileLen limits
  finishBuild blake3 schema base
    { schemaId := schema.schemaId
      payloadLen := .ofNat payload.length
      fileLen := .ofNat fileLen
      blockSize := limits.merkleBlockSize
      blockCount := .ofNat blockCount
      root := root
      hashOffset := .ofNat hashOffset
      hashLen := .ofNat hashSection.length } payload hashSection limits

/-- `build`, of what `to_archive` comes back with for the value. -/
def build (blake3 : List UInt8 → Digest) (schema : Schema) (base : ℕ)
    (serialized : Outcome String (List UInt8)) (limits : ArchiveLimits) :
    Outcome BuildError OwnedArchive := do
  require (schema.schemaId ≠ 0) (.archive .invalidSchemaId)
  require (schema.alignment ≤ maxArchiveAlignment)
    (.archive (.unsupportedAlignment schema.alignment maxArchiveAlignment))
  let blockSize := limits.merkleBlockSize.toNat
  require (blockSize ≠ 0 ∧ isPowerOfTwo blockSize ∧ 32 ≤ blockSize)
    (.archive (.invalidHeader "Merkle block size must be a power of two of at least 32 bytes"))
  let payload ← serialized.mapErr .serialization
  (buildPayload blake3 schema base payload limits).mapErr .archive

/-! ## The envelope is parsed as it was encoded -/

section Parsing

variable {parts : List (List UInt8)} {k offset width n : ℕ}

lemma readLe_flatten (h : parts[k]? = some (leBytes width n))
    (hoffset : (parts.take k).flatten.length = offset) (hn : n < 256 ^ width) :
    readLe parts.flatten offset width = .ok n := by
  rw [readLe, slice_flatten h hoffset (by rw [length_leBytes]), orPanic_some, ok_bind,
    leNat_leBytes hn]
  rfl

lemma readDigest_flatten {d : Digest} (h : parts[k]? = some d.toList)
    (hoffset : (parts.take k).flatten.length = offset) :
    readDigest parts.flatten offset = .ok d := by
  obtain ⟨hk, hpart⟩ := List.getElem?_eq_some_iff.mp h
  have hparts : parts.flatten
      = (parts.take k).flatten ++ (d.toList ++ (parts.drop (k + 1)).flatten) := by
    rw [← hpart, ← List.flatten_cons, List.getElem_cons_drop, ← List.flatten_append,
      List.take_append_drop]
  rw [hparts, ← hoffset]
  exact readDigest_here _ _ _

end Parsing

/-- The header describes a file of this payload and this section. -/
structure Fits (header : ArchiveHeader) (payload hashSection : List UInt8) : Prop where
  schemaId_ne : header.schemaId ≠ 0
  payloadLen_eq : header.payloadLen.toNat = payload.length
  hashOffset_eq : header.hashOffset.toNat = headerLen + payload.length
  hashLen_eq : header.hashLen.toNat = hashSection.length
  fileLen_eq : header.fileLen.toNat = headerLen + payload.length + hashSection.length
  blockSize_pow : isPowerOfTwo header.blockSize.toNat
  blockSize_le : 32 ≤ header.blockSize.toNat
  blockCount_pos : 0 < header.blockCount.toNat
  geometry : ∃ h, treeHeight header.blockCount.toNat = .ok h ∧
    hashSection.length = (2 ^ h - 1) * 32

section Envelope

variable {header : ArchiveHeader} {payload hashSection : List UInt8} {file : Input}
  {limits : ArchiveLimits}

lemma length_headerParts (header : ArchiveHeader) :
    (headerParts header).flatten.length = headerLen := by
  simp [headerParts, magic, headerLen]

lemma checkHashLen_of {blockCount hashLen h : ℕ} {overflow mismatch : ArchiveError}
    (hheight : treeHeight blockCount = .ok h) (hlen : hashLen = (2 ^ h - 1) * 32)
    (hmax : hashLen ≤ u64Max) : checkHashLen blockCount hashLen overflow mismatch = .ok () := by
  rw [checkHashLen, hheight, ok_bind, if_pos (hlen ▸ hmax), okOr_some, ok_bind, require_of hlen]

/-- The envelope of a file is parsed as its header. -/
lemma parseHeader_of_fits (hfit : Fits header payload hashSection)
    (hbytes : file.bytes = (headerParts header ++ [payload, hashSection]).flatten)
    (hlimit : file.bytes.length ≤ limits.maxFileSize) :
    parseHeader file limits = .ok header := by
  have hlen : file.bytes.length = headerLen + payload.length + hashSection.length := by
    rw [hbytes, List.flatten_append, List.length_append, length_headerParts]
    simp [Nat.add_assoc]
  have hfield : ∀ {k offset width n : ℕ}, (headerParts header)[k]? = some (leBytes width n) →
      ((headerParts header).take k).flatten.length = offset → n < 256 ^ width →
      readLe file.bytes offset width = .ok n := by
    intro k offset width n hk hoffset hn
    have hlt := (List.getElem?_eq_some_iff.mp hk).1
    rw [hbytes]
    refine readLe_flatten ((List.getElem?_append_left hlt).trans hk) ?_ hn
    rwa [List.take_append_of_le_length hlt.le]
  have hmagic : file.bytes.take 8 = magic := by rw [hbytes]; rfl
  have hroot : readDigest file.bytes 60 = .ok header.root := by
    rw [hbytes]
    exact readDigest_flatten (k := 10) rfl rfl
  have hreserved : ∀ byte ∈ (file.bytes.drop 108).take 20, byte = 0 := by
    have hslice : slice file.bytes 108 128 = some (List.replicate 20 0) := by
      rw [hbytes]
      exact slice_flatten (k := 13) rfl (by simp [headerParts, magic]) rfl
    rw [(slice_eq_some.mp hslice).2.2]
    exact fun byte hmem => List.eq_of_mem_replicate hmem
  have hversion : readLe file.bytes 8 2 = .ok formatVersion :=
    hfield (k := 1) rfl rfl (by decide)
  have hflags : readLe file.bytes 10 2 = .ok formatFlags := hfield (k := 2) rfl rfl (by decide)
  have hheaderLen : readLe file.bytes 12 4 = .ok headerLen := hfield (k := 3) rfl rfl (by decide)
  have hschema : readLe file.bytes 16 8 = .ok header.schemaId.toNat :=
    hfield (k := 4) rfl rfl header.schemaId.toNat_lt
  have hpayloadLen : readLe file.bytes 24 8 = .ok header.payloadLen.toNat :=
    hfield (k := 5) rfl rfl header.payloadLen.toNat_lt
  have hoffset : readLe file.bytes 32 8 = .ok payloadOffset := hfield (k := 6) rfl rfl (by decide)
  have hfileLen : readLe file.bytes 40 8 = .ok header.fileLen.toNat :=
    hfield (k := 7) rfl rfl header.fileLen.toNat_lt
  have hblockSize : readLe file.bytes 48 4 = .ok header.blockSize.toNat :=
    hfield (k := 8) rfl rfl header.blockSize.toNat_lt
  have hblockCount : readLe file.bytes 52 8 = .ok header.blockCount.toNat :=
    hfield (k := 9) rfl rfl header.blockCount.toNat_lt
  have hhashOffset : readLe file.bytes 92 8 = .ok header.hashOffset.toNat :=
    hfield (k := 11) rfl (by simp [headerParts, magic]) header.hashOffset.toNat_lt
  have hhashLen : readLe file.bytes 100 8 = .ok header.hashLen.toNat :=
    hfield (k := 12) rfl (by simp [headerParts, magic]) header.hashLen.toNat_lt
  have hid : header.schemaId.toNat ≠ 0 := fun h => hfit.schemaId_ne (UInt64.toNat_inj.mp h)
  have hpos : header.blockSize.toNat ≠ 0 := by
    have hmin := hfit.blockSize_le
    omega
  have hmax := file.length_le
  have hpayloadEnd : checkedAdd headerLen header.payloadLen.toNat
      = some (headerLen + payload.length) := by
    rw [hfit.payloadLen_eq, checkedAdd, if_pos (by omega)]
  have hsectionEnd : checkedAdd header.hashOffset.toNat header.hashLen.toNat
      = some header.fileLen.toNat := by
    rw [hfit.hashOffset_eq, hfit.hashLen_eq, hfit.fileLen_eq, checkedAdd, if_pos (by omega)]
  obtain ⟨h, hheight, hsection⟩ := hfit.geometry
  have hcheck : ∀ overflow mismatch,
      checkHashLen header.blockCount.toNat header.hashLen.toNat overflow mismatch = .ok () :=
    fun _ _ => checkHashLen_of hheight (hfit.hashLen_eq.trans hsection)
      (by rw [hfit.hashLen_eq]; omega)
  rw [parseHeader, checkSizeLimit, require_of hlimit, ok_bind, require_of (by omega), ok_bind,
    require_of hmagic, ok_bind, hversion, ok_bind, require_of rfl, ok_bind, hflags, ok_bind,
    require_of rfl, ok_bind, hheaderLen, ok_bind, require_of rfl, ok_bind, hschema, ok_bind,
    require_of hid, ok_bind, hpayloadLen, ok_bind, hoffset, ok_bind, require_of rfl, ok_bind,
    hfileLen, ok_bind, require_of (hfit.fileLen_eq.trans hlen.symm), ok_bind, hpayloadEnd,
    okOr_some, ok_bind, require_of (by rw [hfit.fileLen_eq]; omega), ok_bind, hblockSize, ok_bind,
    require_of ⟨hpos, hfit.blockSize_pow⟩, ok_bind, require_of hfit.blockSize_le, ok_bind,
    hblockCount, ok_bind, require_of (Nat.pos_iff_ne_zero.mp hfit.blockCount_pos), ok_bind, hroot,
    ok_bind, hhashOffset, ok_bind, hhashLen, ok_bind, require_of hreserved, ok_bind,
    require_of hfit.hashOffset_eq, ok_bind, hsectionEnd, okOr_some, ok_bind, require_of rfl,
    ok_bind, hcheck, ok_bind]
  simp only [UInt64.ofNat_toNat, UInt32.ofNat_toNat]
  rfl

/-! ## What is built is validated -/

lemma length_serializeHashSection {node : Digest → Digest → Digest} {T : ℕ → ℕ → Digest}
    (hT : IsLabelling node T) (h : ℕ) :
    (serializeHashSection (levelsAbove node h (row (T 0) h))).length = (2 ^ h - 1) * 32 := by
  have hbytes : ∀ ds : List Digest, (ds.flatMap Vector.toList).length = ds.length * 32 := by
    intro ds
    rw [List.length_flatMap, List.map_congr_left fun d _ => d.length_toList, List.map_const',
      List.sum_replicate, smul_eq_mul]
  rw [serializeHashSection, hbytes]
  cases h with
  | zero => rfl
  | succ k =>
      have hall := levelsAbove_length hT (k + 1)
      rw [levelsAbove_row_succ hT, List.flatten_cons, List.length_append, length_row] at hall
      rw [levelsAbove_row_succ hT, List.drop_succ_cons, List.drop_zero]
      rw [pow_succ 2 (k + 1)] at hall
      omega

/-- The payload and the hash section of a header. -/
def ArchiveHeader.ranges (header : ArchiveHeader) : (ℕ × ℕ) × (ℕ × ℕ) :=
  ((payloadOffset, payloadOffset + header.payloadLen.toNat),
    (payloadOffset + header.payloadLen.toNat, header.fileLen.toNat))

lemma rangesFromHeader_of_fits (hfit : Fits header payload hashSection)
    (hlen : file.bytes.length = header.fileLen.toNat) :
    rangesFromHeader file.bytes.length header = .ok header.ranges := by
  have hmax := file.length_le
  have hfile := hfit.fileLen_eq
  have hpayload : checkedAdd payloadOffset header.payloadLen.toNat
      = some (payloadOffset + header.payloadLen.toNat) := by
    rw [hfit.payloadLen_eq, checkedAdd, if_pos (by rw [payloadOffset]; omega)]
  have hhash : checkedAdd (payloadOffset + header.payloadLen.toNat) header.hashLen.toNat
      = some header.fileLen.toNat := by
    rw [hfit.payloadLen_eq, hfit.hashLen_eq, hfit.fileLen_eq, payloadOffset, checkedAdd,
      if_pos (by omega)]
  rw [rangesFromHeader, hpayload, okOr_some, ok_bind, hhash, okOr_some, ok_bind, require_of, ok_bind,
    require_of, ok_bind]
  · rfl
  · rw [hfit.hashOffset_eq, hfit.payloadLen_eq, payloadOffset]
  · rw [hfit.payloadLen_eq, payloadOffset]
    omega

lemma slices_of_fits (hfit : Fits header payload hashSection)
    (hbytes : file.bytes = (headerParts header ++ [payload, hashSection]).flatten) :
    slice file.bytes header.ranges.1.1 header.ranges.1.2 = some payload ∧
      slice file.bytes header.ranges.2.1 header.ranges.2.2 = some hashSection := by
  have hfront : ((headerParts header ++ [payload, hashSection]).take 14).flatten.length
      = payloadOffset := length_headerParts header
  have hfront' : ((headerParts header ++ [payload, hashSection]).take 15).flatten.length
      = payloadOffset + header.payloadLen.toNat := by
    have hsplit : (headerParts header ++ [payload, hashSection]).take 15
        = headerParts header ++ [payload] := rfl
    rw [hsplit, List.flatten_append, List.length_append, length_headerParts, hfit.payloadLen_eq,
      payloadOffset, List.flatten_singleton]
  rw [hbytes]
  refine ⟨slice_flatten (k := 14) rfl hfront ?_, slice_flatten (k := 15) rfl hfront' ?_⟩
  · rw [ArchiveHeader.ranges, hfit.payloadLen_eq]
  · rw [ArchiveHeader.ranges, hfit.fileLen_eq, hfit.payloadLen_eq, payloadOffset]

/-- A file that fits, with the tree of its payload: only the payload's own check is left. -/
lemma validateArchive_of_fits {blake3 : List UInt8 → Digest} {schema : Schema} {base h : ℕ}
    (hfit : Fits header payload hashSection) (hd : Describes blake3 header payload h)
    (hsection : 0 < h → readSectionHash hashSection (2 ^ h) h h 0 = .ok header.root)
    (hbytes : file.bytes = (headerParts header ++ [payload, hashSection]).flatten)
    (hlimit : file.bytes.length ≤ limits.maxFileSize) (hid : header.schemaId = schema.schemaId)
    (halign : schema.alignment ≤ maxArchiveAlignment)
    (hbase : schema.alignment ∣ base + payloadOffset) :
    validateArchive blake3 schema base file limits =
      (schema.checkAt payload).mapErr .validation >>= fun _ => .ok (header, header.ranges) := by
  have hparse := parseHeader_of_fits hfit hbytes hlimit
  have hlen : file.bytes.length = header.fileLen.toNat := by
    rw [hbytes, List.flatten_append, List.length_append, length_headerParts, hfit.fileLen_eq]
    simp [Nat.add_assoc]
  obtain ⟨hpayload, hhash⟩ := slices_of_fits hfit hbytes
  have hlevels : merkleLevels blake3 payload header.blockSize.toNat
      = .ok (levelsAbove (nodeHash blake3) h (row (header.tree blake3 payload 0) h),
        header.blockCount.toNat) :=
    merkleLevels_eq_ok.mpr ⟨hd.blockSize_pos, hd.blockCount_eq, h, hd.height_eq, rfl⟩
  have htop : topHash (levelsAbove (nodeHash blake3) h (row (header.tree blake3 payload 0) h))
      = .ok header.root := by
    rw [topHash, levelsAbove_last (isLabelling_treeLabel _ _ _ _), orPanic_some]
    exact congrArg _ hd.root_eq
  obtain ⟨h', hheight, hgeometry⟩ := hfit.geometry
  obtain rfl : h' = h := Outcome.ok.inj (hheight.symm.trans hd.height_eq)
  have hmax := file.length_le
  have hfile := hfit.fileLen_eq
  have hcheck : checkHashLen header.blockCount.toNat header.hashLen.toNat
      (.merkle "hash section length overflows")
      (.merkle "recorded hash section length does not match") = .ok () :=
    checkHashLen_of hd.height_eq (hfit.hashLen_eq.trans hgeometry)
      (by rw [hfit.hashLen_eq]; omega)
  have hroot : checkSectionRoot hashSection h' header.root = .ok () := by
    rw [checkSectionRoot]
    split
    · next hpos => rw [hsection hpos, ok_bind, require_of rfl]
    · rfl
  have hstart : (base + header.ranges.1.1) % schema.alignment = 0 := Nat.mod_eq_zero_of_dvd hbase
  rw [validateArchive, require_of (hid ▸ hfit.schemaId_ne), ok_bind, require_of halign, ok_bind,
    hparse, ok_bind, require_of hid, ok_bind, rangesFromHeader_of_fits hfit hlen, ok_bind, hpayload,
    orPanic_some, ok_bind, require_of hstart, ok_bind, hlevels, ok_bind]
  simp only [htop, ok_bind]
  rw [require_of trivial, ok_bind, require_of trivial, ok_bind, hcheck, ok_bind, hhash,
    orPanic_some, ok_bind, require_of hfit.hashLen_eq.symm, ok_bind, hd.height_eq, ok_bind, hroot, ok_bind]
  rfl

end Envelope

/-! ## Built archives -/

/-- The length of an archive whose tree has height `h`: the envelope, the payload, and a hash for
every inner node. -/
def archiveLen (payloadLen h : ℕ) : ℕ := headerLen + payloadLen + (2 ^ h - 1) * 32

section Built

variable (blake3 : List UInt8 → Digest) (schemaId : UInt64) (payload : List UInt8)
  (blockSize : UInt32) (h : ℕ)

/-- The hashes of the inner nodes. -/
def payloadSection : List UInt8 :=
  serializeHashSection (levelsAbove (nodeHash blake3) h (row (treeLabel blake3 payload
    blockSize.toNat (blockTotal payload.length blockSize.toNat) 0) h))

/-- The header of the archive of a payload. -/
def payloadHeader : ArchiveHeader where
  schemaId := schemaId
  payloadLen := .ofNat payload.length
  fileLen := .ofNat (archiveLen payload.length h)
  blockSize := blockSize
  blockCount := .ofNat (blockTotal payload.length blockSize.toNat)
  root := treeLabel blake3 payload blockSize.toNat (blockTotal payload.length blockSize.toNat) h 0
  hashOffset := .ofNat (headerLen + payload.length)
  hashLen := .ofNat ((2 ^ h - 1) * 32)

variable {blake3 schemaId payload blockSize h}

lemma length_payloadSection :
    (payloadSection blake3 payload blockSize h).length = (2 ^ h - 1) * 32 :=
  length_serializeHashSection (isLabelling_treeLabel _ _ _ _) h

lemma describes_payloadHeader (hpos : 0 < blockSize.toNat) (hlen : payload.length < 2 ^ 63)
    (hheight : treeHeight (blockTotal payload.length blockSize.toNat) = .ok h) :
    Describes blake3 (payloadHeader blake3 schemaId payload blockSize h) payload h := by
  have hcount : (UInt64.ofNat (blockTotal payload.length blockSize.toNat)).toNat
      = blockTotal payload.length blockSize.toNat := by
    obtain ⟨hle, -, hmax⟩ := treeHeight_eq_ok.mp hheight
    have hwidth : 2 ^ h < 2 ^ 64 := Nat.pow_lt_pow_right (by decide) (by omega)
    exact UInt64.toNat_ofNat_of_lt' (hle.trans_lt hwidth)
  refine ⟨hpos, ?_, hcount, ?_, ?_⟩
  · exact UInt64.toNat_ofNat_of_lt' (hlen.trans (by decide))
  · rwa [payloadHeader, hcount]
  · rw [ArchiveHeader.tree, payloadHeader, hcount]

lemma fits_payloadHeader (hid : schemaId ≠ 0) (hpow : isPowerOfTwo blockSize.toNat)
    (hmin : 32 ≤ blockSize.toNat) (hlen : payload.length < 2 ^ 63)
    (hheight : treeHeight (blockTotal payload.length blockSize.toNat) = .ok h)
    (hfile : archiveLen payload.length h ≤ u64Max) :
    Fits (payloadHeader blake3 schemaId payload blockSize h) payload
      (payloadSection blake3 payload blockSize h) := by
  have hd : Describes blake3 (payloadHeader blake3 schemaId payload blockSize h) payload h :=
    describes_payloadHeader (by omega) hlen hheight
  rw [archiveLen, headerLen, u64Max] at hfile
  have hword : ∀ n, n ≤ 18446744073709551615 → (UInt64.ofNat n).toNat = n :=
    fun n hn => UInt64.toNat_ofNat_of_lt' (by rw [UInt64.size]; omega)
  refine ⟨hid, hd.payloadLen_eq, ?_, ?_, ?_, hpow, hmin, ?_, h, hd.height_eq,
    length_payloadSection⟩
  · exact hword _ (by rw [headerLen]; omega)
  · rw [length_payloadSection]
    exact hword _ (by omega)
  · rw [length_payloadSection]
    exact hword _ (by rw [archiveLen, headerLen]; omega)
  · rw [hd.blockCount_eq, blockTotal]
    omega

end Built

section Building

variable {blake3 : List UInt8 → Digest} {schema : Schema} {base : ℕ} {payload : List UInt8}
  {limits : ArchiveLimits} {h : ℕ}

/-- The archive of a payload. -/
structure IsArchive (blake3 : List UInt8 → Digest) (schema : Schema) (payload : List UInt8)
    (limits : ArchiveLimits) (h : ℕ) (archive : OwnedArchive) : Prop where
  header_eq : archive.header
    = payloadHeader blake3 schema.schemaId payload limits.merkleBlockSize h
  ranges_eq : archive.ranges = archive.header.ranges
  bytes_eq : archive.bytes.bytes = (headerParts archive.header ++
    [payload, payloadSection blake3 payload limits.merkleBlockSize h]).flatten

lemma finishBuild_eq_ok {header : ArchiveHeader} {hashSection : List UInt8}
    (hfit : Fits header payload hashSection) (hd : Describes blake3 header payload h)
    (hsection : 0 < h → readSectionHash hashSection (2 ^ h) h h 0 = .ok header.root)
    (hlimit : header.fileLen.toNat ≤ limits.maxFileSize) (hid : header.schemaId = schema.schemaId)
    (halign : schema.alignment ≤ maxArchiveAlignment)
    (hbase : schema.alignment ∣ base + payloadOffset) {archive : OwnedArchive} :
    finishBuild blake3 schema base header payload hashSection limits = .ok archive ↔
      header.fileLen.toNat ≤ isizeMax - (maxArchiveAlignment - 1) ∧
        schema.checkAt payload = .ok () ∧ archive.header = header ∧
        archive.ranges = archive.header.ranges ∧
        archive.bytes.bytes = (headerParts archive.header ++ [payload, hashSection]).flatten := by
  have hlen : (headerParts header ++ [payload, hashSection]).flatten.length
      = header.fileLen.toNat := by
    rw [List.flatten_append, List.length_append, length_headerParts, hfit.fileLen_eq]
    simp [Nat.add_assoc]
  rw [← hlen] at hlimit
  rw [finishBuild, ← hlen]
  split
  · next hsize =>
      dsimp only
      rw [validateArchive_of_fits hfit hd hsection rfl hlimit hid halign hbase]
      obtain ⟨⟨bytes, hbytes⟩, ranges, header'⟩ := archive
      constructor
      · intro hbuilt
        obtain ⟨_, hvalid, hbuilt⟩ := bind_eq_ok.mp hbuilt
        obtain ⟨⟨⟩, hcheck, hvalid⟩ := bind_eq_ok.mp hvalid
        cases hvalid
        cases hbuilt
        exact ⟨hsize, mapErr_eq_ok.mp hcheck, rfl, rfl, rfl⟩
      · rintro ⟨-, hcheck, hheader, hranges, hall⟩
        obtain rfl : header' = header := hheader
        obtain rfl : ranges = header'.ranges := hranges
        obtain rfl : bytes = (headerParts header' ++ [payload, hashSection]).flatten := hall
        rw [hcheck]
        rfl
  · next hsize =>
      constructor
      · rintro ⟨⟩
      · exact fun hbuilt => absurd hbuilt.1 hsize

/-- `build` of a payload comes back with its archive if there is room for it and the payload is
valid. -/
lemma buildPayload_eq_ok (hid : schema.schemaId ≠ 0)
    (halign : schema.alignment ≤ maxArchiveAlignment)
    (hbase : schema.alignment ∣ base + payloadOffset)
    (hpow : isPowerOfTwo limits.merkleBlockSize.toNat) (hmin : 32 ≤ limits.merkleBlockSize.toNat)
    (hlen : payload.length ≤ isizeMax)
    (hheight : treeHeight (blockTotal payload.length limits.merkleBlockSize.toNat) = .ok h)
    {archive : OwnedArchive} :
    buildPayload blake3 schema base payload limits = .ok archive ↔
      archiveLen payload.length h ≤ limits.maxFileSize ∧
        archiveLen payload.length h ≤ isizeMax - (maxArchiveAlignment - 1) ∧
        schema.checkAt payload = .ok () ∧
        IsArchive blake3 schema payload limits h archive := by
  have hshort : payload.length < 2 ^ 63 := by
    rw [isizeMax] at hlen
    omega
  obtain ⟨h', hheight', hlevels⟩ := exists_merkleLevels blake3 hshort
    (show 0 < limits.merkleBlockSize.toNat by omega)
  obtain rfl : h' = h := Outcome.ok.inj (hheight'.symm.trans hheight)
  have hT := isLabelling_treeLabel blake3 payload limits.merkleBlockSize.toNat
    (blockTotal payload.length limits.merkleBlockSize.toNat)
  have hend : checkedAdd headerLen payload.length = some (headerLen + payload.length) := by
    rw [checkedAdd, if_pos (by rw [headerLen, u64Max]; omega)]
  rw [buildPayload, hlevels, ok_bind]
  simp only [topHash, levelsAbove_last hT, orPanic_some, ok_bind, hend, okOr_some]
  rw [length_serializeHashSection hT, checkedAdd]
  by_cases hfile : archiveLen payload.length h' ≤ u64Max
  · have hfit : Fits (payloadHeader blake3 schema.schemaId payload limits.merkleBlockSize h') payload
        (payloadSection blake3 payload limits.merkleBlockSize h') :=
      fits_payloadHeader hid hpow hmin hshort hheight hfile
    have hd : Describes blake3
        (payloadHeader blake3 schema.schemaId payload limits.merkleBlockSize h') payload h' :=
      describes_payloadHeader (show 0 < limits.merkleBlockSize.toNat by omega) hshort hheight
    have hword : (payloadHeader blake3 schema.schemaId payload limits.merkleBlockSize h').fileLen.toNat
        = archiveLen payload.length h' := by
      rw [hfit.fileLen_eq, length_payloadSection, archiveLen]
    have hsection : 0 < h' → readSectionHash
        (payloadSection blake3 payload limits.merkleBlockSize h') (2 ^ h') h' h' 0
          = .ok (payloadHeader blake3 schema.schemaId payload limits.merkleBlockSize h').root :=
      fun hpos => readSectionHash_serialize hT hpos le_rfl (Nat.two_pow_pos _)
    have hroom : headerLen + payload.length + (2 ^ h' - 1) * 32 ≤ u64Max := hfile
    rw [if_pos hroom, okOr_some, ok_bind, checkSizeLimit]
    by_cases hlimit : archiveLen payload.length h' ≤ limits.maxFileSize
    · have hlimit' : headerLen + payload.length + (2 ^ h' - 1) * 32 ≤ limits.maxFileSize := hlimit
      rw [require_of hlimit', ok_bind]
      refine (finishBuild_eq_ok hfit hd hsection (by rwa [hword]) rfl halign hbase).trans ?_
      rw [hword]
      constructor
      · rintro ⟨hsize, hcheck, hheader, hranges, hbytes⟩
        exact ⟨hlimit, hsize, hcheck, hheader, hranges, hbytes⟩
      · rintro ⟨-, hsize, hcheck, hheader, hranges, hbytes⟩
        exact ⟨hsize, hcheck, hheader, hranges, hbytes⟩
    · refine iff_of_false (fun hbuilt => ?_) fun hbuilt => hlimit hbuilt.1
      obtain ⟨_, hroom, -⟩ := bind_eq_ok.mp hbuilt
      exact hlimit (require_eq_ok.mp hroom)
  · have hover : ¬ headerLen + payload.length + (2 ^ h' - 1) * 32 ≤ u64Max := hfile
    rw [if_neg hover]
    refine iff_of_false (fun hbuilt => by cases hbuilt) fun hbuilt => hfile ?_
    exact hbuilt.2.1.trans (by decide)

lemma exists_isArchive (blake3 : List UInt8 → Digest) (schema : Schema)
    (hfile : archiveLen payload.length h ≤ u64Max) :
    ∃ archive, IsArchive blake3 schema payload limits h archive := by
  have hlen : (headerParts (payloadHeader blake3 schema.schemaId payload limits.merkleBlockSize h)
      ++ [payload, payloadSection blake3 payload limits.merkleBlockSize h]).flatten.length
        ≤ u64Max := by
    rw [List.flatten_append, List.length_append, length_headerParts]
    simp only [List.flatten_cons, List.flatten_nil, List.append_nil, List.length_append,
      length_payloadSection, ← Nat.add_assoc]
    exact hfile
  let header := payloadHeader blake3 schema.schemaId payload limits.merkleBlockSize h
  exact ⟨⟨⟨_, hlen⟩, header.ranges, header⟩, ⟨rfl, rfl, rfl⟩⟩

namespace IsArchive

variable {archive : OwnedArchive}

lemma fits (hbuilt : IsArchive blake3 schema payload limits h archive) (hid : schema.schemaId ≠ 0)
    (hpow : isPowerOfTwo limits.merkleBlockSize.toNat) (hmin : 32 ≤ limits.merkleBlockSize.toNat)
    (hlen : payload.length < 2 ^ 63)
    (hheight : treeHeight (blockTotal payload.length limits.merkleBlockSize.toNat) = .ok h)
    (hfile : archiveLen payload.length h ≤ u64Max) :
    Fits archive.header payload (payloadSection blake3 payload limits.merkleBlockSize h) :=
  hbuilt.header_eq ▸ fits_payloadHeader hid hpow hmin hlen hheight hfile

lemma describes (hbuilt : IsArchive blake3 schema payload limits h archive)
    (hpos : 0 < limits.merkleBlockSize.toNat) (hlen : payload.length < 2 ^ 63)
    (hheight : treeHeight (blockTotal payload.length limits.merkleBlockSize.toNat) = .ok h) :
    Describes blake3 archive.header payload h :=
  hbuilt.header_eq ▸ describes_payloadHeader hpos hlen hheight

lemma stores (hbuilt : IsArchive blake3 schema payload limits h archive)
    (hd : Describes blake3 archive.header payload h) :
    Stores (payloadSection blake3 payload limits.merkleBlockSize h) h
      (archive.header.tree blake3 payload) := by
  have hcount : archive.header.tree blake3 payload = treeLabel blake3 payload
      limits.merkleBlockSize.toNat (blockTotal payload.length limits.merkleBlockSize.toNat) := by
    rw [ArchiveHeader.tree, hd.blockCount_eq, hbuilt.header_eq]
    rfl
  rw [hcount]
  exact stores_serialize (isLabelling_treeLabel _ _ _ _) h

end IsArchive

end Building

/-- `build` of a payload after the checks of the schema and the block size. -/
lemma build_eq_ok {blake3 : List UInt8 → Digest} {schema : Schema} {base : ℕ}
    {payload : List UInt8} {limits : ArchiveLimits} {archive : OwnedArchive} :
    build blake3 schema base (.ok payload) limits = .ok archive ↔
      schema.schemaId ≠ 0 ∧ schema.alignment ≤ maxArchiveAlignment ∧
        isPowerOfTwo limits.merkleBlockSize.toNat ∧ 32 ≤ limits.merkleBlockSize.toNat ∧
        buildPayload blake3 schema base payload limits = .ok archive := by
  rw [build]
  constructor
  · intro hbuilt
    obtain ⟨_, hid, hbuilt⟩ := bind_eq_ok.mp hbuilt
    obtain ⟨_, halign, hbuilt⟩ := bind_eq_ok.mp hbuilt
    obtain ⟨_, hsize, hbuilt⟩ := bind_eq_ok.mp hbuilt
    obtain ⟨-, hpow, hmin⟩ := require_eq_ok.mp hsize
    exact ⟨require_eq_ok.mp hid, require_eq_ok.mp halign, hpow, hmin, mapErr_eq_ok.mp hbuilt⟩
  · rintro ⟨hid, halign, hpow, hmin, hbuilt⟩
    have hsize : limits.merkleBlockSize.toNat ≠ 0 ∧ isPowerOfTwo limits.merkleBlockSize.toNat ∧
        32 ≤ limits.merkleBlockSize.toNat := ⟨by omega, hpow, hmin⟩
    rw [require_of hid, ok_bind, require_of halign, ok_bind]
    dsimp only
    rw [require_of hsize, ok_bind]
    exact mapErr_eq_ok.mpr hbuilt

/-- The archived root is aligned behind the envelope. -/
lemma alignment_dvd {alignment base : ℕ} (halignment : IsAlign alignment)
    (hbase : maxArchiveAlignment ∣ base) (halign : alignment ≤ maxArchiveAlignment) :
    alignment ∣ base + payloadOffset := by
  obtain ⟨k, rfl⟩ := halignment
  have hfew : k ≤ 6 := (Nat.pow_le_pow_iff_right (show 1 < 2 by decide)).mp halign
  have hsmall : 2 ^ k ∣ maxArchiveAlignment := pow_dvd_pow 2 hfew
  exact (hsmall.trans hbase).add (hsmall.trans (by decide))

section Specification

variable {blake3 : List UInt8 → Digest} {schema : Schema} {base : ℕ} {payload : List UInt8}
  {limits : ArchiveLimits}

/-- What `build` asks for. -/
structure Buildable (schema : Schema) (payload : List UInt8) (limits : ArchiveLimits) : Prop where
  schemaId_ne : schema.schemaId ≠ 0
  alignment_le : schema.alignment ≤ maxArchiveAlignment
  blockSize_pow : isPowerOfTwo limits.merkleBlockSize.toNat
  blockSize_le : 32 ≤ limits.merkleBlockSize.toNat
  checked : schema.checkAt payload = .ok ()
  room : ∃ h, treeHeight (blockTotal payload.length limits.merkleBlockSize.toNat) = .ok h ∧
    archiveLen payload.length h ≤ limits.maxFileSize ∧
    archiveLen payload.length h ≤ isizeMax - (maxArchiveAlignment - 1)

/-- What `build` has built holds the payload, has a proof for every range, and is accepted wherever
it is aligned. -/
structure Holds (blake3 : List UInt8 → Digest) (schema : Schema) (payload : List UInt8)
    (archive : OwnedArchive) : Prop where
  payload_eq : slice archive.bytes.bytes archive.ranges.1.1 archive.ranges.1.2 = some payload
  provable : Provable blake3 archive.bytes.bytes payload archive.ranges archive.header
  accepted : ∀ base limits, schema.alignment ∣ base + payloadOffset →
    archive.bytes.bytes.length ≤ limits.maxFileSize →
    validateArchive blake3 schema base archive.bytes limits = .ok (archive.header, archive.ranges)

lemma exists_build_iff (halignment : IsAlign schema.alignment)
    (hbase : maxArchiveAlignment ∣ base) (hlen : payload.length ≤ isizeMax) :
    (∃ archive, build blake3 schema base (.ok payload) limits = .ok archive) ↔
      Buildable schema payload limits := by
  have hshort : payload.length < 2 ^ 63 := by
    rw [isizeMax] at hlen
    omega
  constructor
  · rintro ⟨archive, hbuilt⟩
    obtain ⟨hid, halign, hpow, hmin, hbuilt⟩ := build_eq_ok.mp hbuilt
    obtain ⟨h, hheight, -⟩ := exists_merkleLevels blake3 hshort
      (show 0 < limits.merkleBlockSize.toNat by omega)
    obtain ⟨hlimit, hsize, hcheck, -⟩ := (buildPayload_eq_ok hid halign
      (alignment_dvd halignment hbase halign) hpow hmin hlen hheight).mp hbuilt
    exact ⟨hid, halign, hpow, hmin, hcheck, h, hheight, hlimit, hsize⟩
  · rintro ⟨hid, halign, hpow, hmin, hcheck, h, hheight, hlimit, hsize⟩
    obtain ⟨archive, harchive⟩ : ∃ archive, IsArchive blake3 schema payload limits h archive :=
      exists_isArchive blake3 schema (hsize.trans (by decide))
    have hbuilt := (buildPayload_eq_ok hid halign (alignment_dvd halignment hbase halign) hpow hmin
      hlen hheight).mpr ⟨hlimit, hsize, hcheck, harchive⟩
    exact ⟨archive, build_eq_ok.mpr ⟨hid, halign, hpow, hmin, hbuilt⟩⟩

lemma holds_of_build (halignment : IsAlign schema.alignment)
    (hbase : maxArchiveAlignment ∣ base) (hlen : payload.length ≤ isizeMax)
    {archive : OwnedArchive}
    (hbuilt : build blake3 schema base (.ok payload) limits = .ok archive) :
    Holds blake3 schema payload archive := by
  have hshort : payload.length < 2 ^ 63 := by
    rw [isizeMax] at hlen
    omega
  obtain ⟨hid, halign, hpow, hmin, hbuilt⟩ := build_eq_ok.mp hbuilt
  obtain ⟨h, hheight, -⟩ := exists_merkleLevels blake3 hshort
    (show 0 < limits.merkleBlockSize.toNat by omega)
  obtain ⟨-, hsize, hcheck, hbuilt⟩ := (buildPayload_eq_ok hid halign
    (alignment_dvd halignment hbase halign) hpow hmin hlen hheight).mp hbuilt
  have hfit := hbuilt.fits hid hpow hmin hshort hheight (hsize.trans (by decide))
  have hd := hbuilt.describes (by omega) hshort hheight
  have hstores := hbuilt.stores hd
  obtain ⟨hpayload, hsection⟩ := slices_of_fits hfit hbuilt.bytes_eq
  have hv : Validated blake3 archive.bytes.bytes payload
      (payloadSection blake3 payload limits.merkleBlockSize h) archive.ranges archive.header h :=
    ⟨hd, hbuilt.ranges_eq ▸ hpayload, hbuilt.ranges_eq ▸ hsection, length_payloadSection⟩
  refine ⟨hv.payload_eq, hv.provable_of_matches hshort ?_, ?_⟩
  · intro l i hpos hl hcovered
    refine hstores l i hpos hl.le ?_
    have hsibling : (i ^^^ 1) < 2 ^ (h - l) := by
      refine Nat.lt_of_mul_lt_mul_right (a := 2 ^ l) ?_
      rw [← pow_add, Nat.sub_add_cancel hl.le]
      exact hcovered.trans_le hd.blockCount_le
    have hparent := HeapTree.xor_one_div_two i
    have heven : 2 ^ (h - l) = 2 * 2 ^ (h - l - 1) := by
      rw [← pow_succ', Nat.sub_add_cancel (by omega)]
    omega
  · intro base' limits' hbase' hlimit'
    rw [validateArchive_of_fits hfit hd ?_ hbuilt.bytes_eq hlimit' ?_ halign hbase', hcheck,
      hbuilt.ranges_eq]
    · rfl
    · intro hpos
      rw [hstores h 0 hpos le_rfl (Nat.two_pow_pos _), hd.root_eq]
    · rw [hbuilt.header_eq]
      rfl

/-- **Building archives.** `build` comes back with an archive exactly if the schema and the block
size are supported, the payload passes its own check, and there is room for the envelope, the
payload and the hashes of its tree.  What it has built holds the payload, has a proof for every
range, and is accepted again wherever it is aligned. -/
theorem build_iff (halignment : IsAlign schema.alignment)
    (hbase : maxArchiveAlignment ∣ base) (hlen : payload.length ≤ isizeMax) :
    ((∃ archive, build blake3 schema base (.ok payload) limits = .ok archive) ↔
        Buildable schema payload limits) ∧
      ∀ archive, build blake3 schema base (.ok payload) limits = .ok archive →
        Holds blake3 schema payload archive :=
  ⟨exists_build_iff halignment hbase hlen, fun _ => holds_of_build halignment hbase hlen⟩

end Specification

theorem build_iff_sample :
    ((∃ archive, build sampleHash byteSchema 64 (.ok samplePayload) ⟨1024, 64⟩ = .ok archive) ↔
        Buildable byteSchema samplePayload ⟨1024, 64⟩) ∧
      ∀ archive, build sampleHash byteSchema 64 (.ok samplePayload) ⟨1024, 64⟩ = .ok archive →
        Holds sampleHash byteSchema samplePayload archive :=
  build_iff ⟨0, rfl⟩ (by decide) (by simp [samplePayload, isizeMax])

end RustBinary.Archive
