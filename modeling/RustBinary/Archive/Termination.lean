import RustBinary.Archive.Header

/-!
# When the header parser returns

`tree_height` doubles a 64-bit word until it reaches the block count.  Beyond `2 ^ 63` blocks the
word becomes zero first, and the loop does not end; the block count is not compared with anything
before.
-/

namespace RustBinary.Archive

open Lib Lib.Outcome

/-- The height is computed for at most `2 ^ 63` blocks. -/
lemma treeHeight_returned_iff {blockCount : ℕ} :
    (treeHeight blockCount).Returned ↔ blockCount ≤ 2 ^ 63 := by
  constructor
  · intro h
    have hout : ∃ out, treeHeight blockCount = .ok out := by
      have herr : ∀ fuel size height e, treeHeightLoop blockCount fuel size height ≠ .err e := by
        intro fuel
        induction fuel with
        | zero =>
            intro size height e hloop
            cases hloop
        | succ fuel ih =>
            intro size height e hloop
            rw [treeHeightLoop] at hloop
            split at hloop
            · exact ih _ _ _ hloop
            · cases hloop
      refine h.eq_ok fun e heq => ?_
      rw [treeHeight] at heq
      split at heq
      · cases heq
      · exact herr _ _ _ e heq
    obtain ⟨out, hout⟩ := hout
    obtain ⟨hle, -, hmax⟩ := treeHeight_eq_ok.mp hout
    exact hle.trans (Nat.pow_le_pow_right (by decide) hmax)
  · intro h
    obtain ⟨height, hheight⟩ := exists_treeHeight h
    rw [hheight]
    trivial

/-- The shift by the height is one of a 64-bit word. -/
lemma treeHeight_spec {blockCount height : ℕ} (h : treeHeight blockCount = .ok height) :
    blockCount ≤ 2 ^ height ∧ height < 64 := by
  obtain ⟨hle, -, hmax⟩ := treeHeight_eq_ok.mp h
  exact ⟨hle, by omega⟩

/-- A field of the header. -/
def field (bytes : List UInt8) (offset width : ℕ) : ℕ := leNat ((bytes.drop offset).take width)

/-- What `parse_header` checks in front of the height of the tree. -/
structure Envelope (bytes : List UInt8) (limits : ArchiveLimits) : Prop where
  size_le : bytes.length ≤ limits.maxFileSize
  header_le : headerLen ≤ bytes.length
  magic_eq : bytes.take 8 = magic
  version_eq : field bytes 8 2 = formatVersion
  flags_eq : field bytes 10 2 = formatFlags
  headerLen_eq : field bytes 12 4 = headerLen
  schemaId_ne : field bytes 16 8 ≠ 0
  offset_eq : field bytes 32 8 = payloadOffset
  fileLen_eq : field bytes 40 8 = bytes.length
  payload_le : headerLen + field bytes 24 8 ≤ bytes.length
  blockSize_eq : field bytes 48 4 ≠ 0 ∧ isPowerOfTwo (field bytes 48 4)
  blockSize_ge : 32 ≤ field bytes 48 4
  blockCount_ne : field bytes 52 8 ≠ 0
  reserved_eq : ∀ byte ∈ (bytes.drop 108).take 20, byte = 0
  hashOffset_eq : field bytes 92 8 = headerLen + field bytes 24 8
  hashLen_eq : field bytes 92 8 + field bytes 100 8 = bytes.length

lemma readLe_eq_ok {bytes : List UInt8} {offset width : ℕ} (h : offset + width ≤ bytes.length) :
    readLe bytes offset width = .ok (field bytes offset width) := by
  rw [readLe, show slice bytes offset (offset + width) = some ((bytes.drop offset).take width) from
    slice_eq_some.mpr ⟨Nat.le_add_right _ _, h, by rw [Nat.add_sub_cancel_left]⟩]
  rfl

lemma readDigest_eq_ok {bytes : List UInt8} {position : ℕ} (h : position + 32 ≤ bytes.length) :
    ∃ digest, readDigest bytes position = .ok digest := by
  rw [readDigest, dif_pos h]
  exact ⟨_, rfl⟩

lemma field_le {bytes : List UInt8} {offset : ℕ} : field bytes offset 8 ≤ u64Max := by
  have hlt := leNat_lt ((bytes.drop offset).take 8)
  have hlen : ((bytes.drop offset).take 8).length ≤ 8 := List.length_take_le _ _
  have hpow : 256 ^ ((bytes.drop offset).take 8).length ≤ 256 ^ 8 :=
    Nat.pow_le_pow_right (by decide) hlen
  rw [u64Max, field]
  omega

/-- Nothing but the height of the tree keeps the geometry check from returning. -/
lemma checkHashLen_returned_iff {blockCount hashLen : ℕ} {overflow mismatch : ArchiveError} :
    (checkHashLen blockCount hashLen overflow mismatch).Returned ↔ blockCount ≤ 2 ^ 63 := by
  constructor
  · intro h
    by_contra hlarge
    rw [← treeHeight_returned_iff] at hlarge
    rw [checkHashLen] at h
    rcases hheight : treeHeight blockCount with height | e | _ | _
    · exact hlarge (by rw [hheight]; trivial)
    · exact hlarge (by rw [hheight]; trivial)
    · rw [hheight] at h
      exact h
    · rw [hheight] at h
      exact h
  · intro h
    refine bind_returned (treeHeight_returned_iff.mpr h) fun height => ?_
    exact bind_returned (okOr_returned _ _) fun expected => require_returned _ _

/-- The parser returns unless a file with an otherwise consistent envelope declares more than
`2 ^ 63` blocks, and the height of the tree is found for exactly the counts up to there. -/
theorem parseHeader_returned_iff (file : Input) (limits : ArchiveLimits) :
    ((parseHeader file limits).Returned ↔
      (Envelope file.bytes limits → field file.bytes 52 8 ≤ 2 ^ 63)) ∧
    ∀ blockCount : ℕ,
      (∃ height, treeHeight blockCount = .ok height ∧ blockCount ≤ 2 ^ height ∧ height < 64) ↔
        blockCount ≤ 2 ^ 63 := by
  constructor
  · by_cases hsize : headerLen ≤ file.bytes.length
    · have hlen : 128 ≤ file.bytes.length := hsize
      obtain ⟨digest, hdigest⟩ : ∃ digest, readDigest file.bytes 60 = .ok digest :=
        readDigest_eq_ok (by omega)
      rw [parseHeader]
      simp only [readLe_eq_ok (show 8 + 2 ≤ file.bytes.length by omega),
        readLe_eq_ok (show 10 + 2 ≤ file.bytes.length by omega),
        readLe_eq_ok (show 12 + 4 ≤ file.bytes.length by omega),
        readLe_eq_ok (show 16 + 8 ≤ file.bytes.length by omega),
        readLe_eq_ok (show 24 + 8 ≤ file.bytes.length by omega),
        readLe_eq_ok (show 32 + 8 ≤ file.bytes.length by omega),
        readLe_eq_ok (show 40 + 8 ≤ file.bytes.length by omega),
        readLe_eq_ok (show 48 + 4 ≤ file.bytes.length by omega),
        readLe_eq_ok (show 52 + 8 ≤ file.bytes.length by omega),
        readLe_eq_ok (show 92 + 8 ≤ file.bytes.length by omega),
        readLe_eq_ok (show 100 + 8 ≤ file.bytes.length by omega), hdigest, ok_bind,
        checkSizeLimit, require_bind_returned, okOr_bind_returned, pure_eq_ok,
        bind_ok_returned, checkHashLen_returned_iff]
      constructor
      · intro h env
        have hpayload : headerLen + field file.bytes 24 8 ≤ u64Max := by
          have := env.payload_le
          have := env.fileLen_eq ▸ @field_le file.bytes 40
          omega
        have hsection : field file.bytes 92 8 + field file.bytes 100 8 ≤ u64Max := by
          rw [env.hashLen_eq, ← env.fileLen_eq]
          exact field_le
        exact h env.size_le env.header_le env.magic_eq env.version_eq env.flags_eq env.headerLen_eq
          env.schemaId_ne env.offset_eq env.fileLen_eq _ (if_pos hpayload)
          (env.payload_le.trans_eq env.fileLen_eq.symm) env.blockSize_eq env.blockSize_ge
          env.blockCount_ne env.reserved_eq env.hashOffset_eq _ (if_pos hsection)
          (env.hashLen_eq.trans env.fileLen_eq.symm)
      · intro h hsizeLe hheader hmagic hversion hflags hheaderLen hschema hoffset hfileLen
          payloadEnd hpayloadEnd hpayload hblockSize hblockSizeGe hblockCount hreserved hhashOffset
          sectionEnd hsectionEnd hhashLen
        obtain rfl := checkedAdd_eq_some hpayloadEnd
        obtain rfl := checkedAdd_eq_some hsectionEnd
        exact h {
          size_le := hsizeLe
          header_le := hheader
          magic_eq := hmagic
          version_eq := hversion
          flags_eq := hflags
          headerLen_eq := hheaderLen
          schemaId_ne := hschema
          offset_eq := hoffset
          fileLen_eq := hfileLen
          payload_le := hpayload.trans_eq hfileLen
          blockSize_eq := hblockSize
          blockSize_ge := hblockSizeGe
          blockCount_ne := hblockCount
          reserved_eq := hreserved
          hashOffset_eq := hhashOffset
          hashLen_eq := hhashLen.trans hfileLen }
    · have hshort : (parseHeader file limits).Returned := by
        rw [parseHeader]
        simp only [checkSizeLimit, require_bind_returned]
        intro _ hheader
        exact absurd hheader hsize
      exact iff_of_true hshort fun env => absurd env.header_le hsize
  · intro blockCount
    constructor
    · rintro ⟨height, hheight, -⟩
      rw [← treeHeight_returned_iff, hheight]
      trivial
    · intro h
      obtain ⟨height, hheight⟩ := exists_treeHeight h
      exact ⟨height, hheight, treeHeight_spec hheight⟩

/-- A file of the length of its header that declares one block more. -/
def endless : Input where
  bytes := magic ++ [4, 0, 1, 0, 128, 0, 0, 0] ++ [1, 0, 0, 0, 0, 0, 0, 0] ++
    [0, 0, 0, 0, 0, 0, 0, 0] ++ [128, 0, 0, 0, 0, 0, 0, 0] ++ [128, 0, 0, 0, 0, 0, 0, 0] ++
    [32, 0, 0, 0] ++ [1, 0, 0, 0, 0, 0, 0, 128] ++ List.replicate 32 0 ++
    [128, 0, 0, 0, 0, 0, 0, 0] ++ List.replicate 28 0
  length_le := by decide +kernel

theorem parseHeader_endless :
    ¬ (parseHeader endless .new).Returned ∧ ¬ (treeHeight (2 ^ 63 + 1)).Returned := by
  decide +kernel

end RustBinary.Archive
