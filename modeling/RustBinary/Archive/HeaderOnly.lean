import RustBinary.Archive.Completeness

/-!
# Proofs from an archive that is opened by its header

`open_header_only` checks the envelope and nothing else.  The header bounds the hash section by
the declared block count, and the payload by its length, but it does not relate the two: the
number of blocks may differ from the declared count in both directions.  `proofFor_returned_iff`
says exactly which headers are safe.
-/

namespace RustBinary.Archive

open Lib Lib.Outcome

/-- `proof_for`, with the ranges of the payload and of the hash section. -/
def proofFor (blake3 : List UInt8 → Digest) (bytes : List UInt8) (ranges : (ℕ × ℕ) × (ℕ × ℕ))
    (header : ArchiveHeader) (offset len : UInt64) : Result MerkleProof := do
  let payload ← orPanic (slice bytes ranges.1.1 ranges.1.2)
  let hashSection ← orPanic (slice bytes ranges.2.1 ranges.2.2)
  buildProof blake3 payload hashSection offset len header

/-! ## Single reads -/

section Reads

variable {blake3 : List UInt8 → Digest} {payload hashSection : List UInt8}

lemma blockAt_ne_err (payload : List UInt8) (blockSize index : ℕ) (e : ArchiveError) :
    blockAt payload blockSize index ≠ .err e := by
  rw [blockAt_eq]
  split <;> simp

lemma leafHashFor_returned_iff {blockSize blockCount index : ℕ} :
    (leafHashFor blake3 payload blockSize blockCount index).Returned ↔
      (index < blockCount → index * blockSize ≤ payload.length) := by
  rw [leafHashFor]
  split
  · next h =>
      rw [blockAt_eq]
      split
      · next hin => simp [hin]
      · next hout => simp [h, hout]
  · next h => simp [h]

lemma leafHashFor_ne_err (blockSize blockCount index : ℕ) (e : ArchiveError) :
    leafHashFor blake3 payload blockSize blockCount index ≠ .err e := by
  rw [leafHashFor]
  split
  · rw [blockAt_eq]
    split <;> simp
  · simp

lemma readDigest_returned_iff {bytes : List UInt8} {position : ℕ} :
    (readDigest bytes position).Returned ↔ position + 32 ≤ bytes.length := by
  rw [readDigest]
  split
  · next h => simp [h]
  · next h => simp [h]

lemma readDigest_ne_err (bytes : List UInt8) (position : ℕ) (e : ArchiveError) :
    readDigest bytes position ≠ .err e := by
  rw [readDigest]
  split <;> simp

lemma readSectionHash_ne_err (leafCount height level index : ℕ) (e : ArchiveError) :
    readSectionHash hashSection leafCount height level index ≠ .err e := readDigest_ne_err _ _ e

/-- A stored hash is there when its index is. -/
lemma readSectionHash_returned_iff {h l i : ℕ} (hlen : hashSection.length = (2 ^ h - 1) * 32)
    (hl : 0 < l) (hlh : l ≤ h) :
    (readSectionHash hashSection (2 ^ h) h l i).Returned ↔ i + 2 ≤ 2 ^ (h - l + 1) := by
  have hwidth : 2 ^ (h - l + 1) ≤ 2 ^ h := Nat.pow_le_pow_right (by decide) (by omega)
  have hpos := Nat.two_pow_pos h
  rw [readSectionHash, readDigest_returned_iff, hlen]
  omega

end Reads

/-! ## Every range -/

/-- The number of blocks that the payload fills. -/
def filledBlocks (payloadLen blockSize : ℕ) : ℕ := (payloadLen + (blockSize - 1)) / blockSize

/-- Where the siblings of ranges of blocks can all be read: the section has all hashes above
them, and a leaf behind the last block is padding, or is empty. -/
lemma siblings_returned_iff {blake3 : List UInt8 → Digest} {payload hashSection : List UInt8}
    {blockSize blockCount h : ℕ} (hpos : 0 < blockSize)
    (hheight : treeHeight blockCount = .ok h) (hlen : hashSection.length = (2 ^ h - 1) * 32)
    (hne : payload ≠ []) :
    (∀ a b, a ≤ b → b < filledBlocks payload.length blockSize →
        (collectSiblings blake3 payload hashSection blockSize blockCount h a b).Returned) ↔
      (h ≤ 1 ∨ filledBlocks payload.length blockSize ≤ 2 ^ h) ∧
        (blockCount ≤ filledBlocks payload.length blockSize ∨
          filledBlocks payload.length blockSize % 2 = 0 ∨ blockSize ∣ payload.length) := by
  obtain ⟨B, hB⟩ : ∃ B, B = filledBlocks payload.length blockSize := ⟨_, rfl⟩
  have hin : ∀ i, i < B ↔ i * blockSize < payload.length := by
    intro i
    rw [hB]
    exact lt_ceil_iff hpos
  have hBpos : 0 < B := by
    rw [hin, Nat.zero_mul]
    exact List.length_pos_iff.mpr hne
  have hcover : payload.length ≤ B * blockSize := by
    have := (hin B).not.mp (Nat.lt_irrefl B)
    omega
  have hread : ∀ a b, a ≤ b →
      ((collectSiblings blake3 payload hashSection blockSize blockCount h a b).Returned ↔
        ∀ l i, IsSibling a b h l i → if l = 0 then (i < blockCount → i * blockSize ≤ payload.length)
          else i + 2 ≤ 2 ^ (h - l + 1)) := by
    intro a b hab
    rw [collectSiblings, computePlan, collectLoop_returned_iff (leafHashFor_ne_err _ _)
      (readSectionHash_ne_err _ _) hab]
    refine forall_congr' fun l => forall_congr' fun i => imp_congr_right fun hi => ?_
    rw [Nat.zero_add]
    split
    · exact leafHashFor_returned_iff
    · next hl => exact readSectionHash_returned_iff hlen (Nat.pos_of_ne_zero hl) hi.1.le
  rw [← hB]
  constructor
  · intro hall
    constructor
    · -- otherwise the first block beyond the leaves needs a hash behind the section
      by_contra hbig
      have hlt : 2 ^ h < B := by omega
      have hsib : IsSibling (2 ^ h) (2 ^ h) h (h - 1) 3 := by
        refine ⟨by omega, List.mem_append_right _ ?_⟩
        rw [Nat.pow_div (by omega) (by decide), show h - (h - 1) = 1 by omega]
        decide
      have hgood := (hread _ _ (Nat.le_refl _)).mp (hall _ _ (Nat.le_refl _) hlt) _ _ hsib
      rw [if_neg (by omega), show h - (h - 1) + 1 = 2 by omega] at hgood
      omega
    · -- otherwise the leaf behind the last block is taken for a block
      by_contra hbad
      push Not at hbad
      obtain ⟨hcount, hodd, hdvd⟩ := hbad
      have hsib : IsSibling (B - 1) (B - 1) h 0 B := by
        constructor
        · by_contra hzero
          obtain rfl : h = 0 := by omega
          have := (treeHeight_eq_ok.mp hheight).1
          omega
        · rw [pow_zero, Nat.div_one]
          refine List.mem_append_right _ ?_
          rw [rightEdge, if_pos (by omega), List.mem_singleton]
          omega
      have hgood := (hread _ _ (Nat.le_refl _)).mp (hall _ _ (Nat.le_refl _) (by omega)) _ _ hsib
      rw [if_pos rfl] at hgood
      exact hdvd ⟨B, by rw [Nat.mul_comm]; exact Nat.le_antisymm hcover (hgood hcount)⟩
  · rintro ⟨hsection, hleaf⟩ a b hab hb
    refine (hread a b hab).mpr fun l i hi => ?_
    split
    · next hzero =>
        subst hzero
        intro hcount
        obtain ⟨-, hmem⟩ := hi
        rw [pow_zero, Nat.div_one, Nat.div_one, leftEdge, rightEdge] at hmem
        by_cases hfilled : i < B
        · exact ((hin i).mp hfilled).le
        · -- the leaf behind the last block
          have hlast : i = B ∧ B % 2 = 1 := by
            rcases List.mem_append.mp hmem with hleft | hright
            · split at hleft
              · have := List.mem_singleton.mp hleft
                omega
              · simp at hleft
            · split at hright
              · have := List.mem_singleton.mp hright
                omega
              · simp at hright
          obtain ⟨k, hk⟩ : blockSize ∣ payload.length := by
            rcases hleaf with h₁ | h₁ | h₁
            · omega
            · omega
            · exact h₁
          have hlt := (hin (B - 1)).mp (by omega)
          rw [hk, Nat.mul_comm, Nat.mul_lt_mul_left hpos] at hlt
          rw [hlast.1, hk, Nat.mul_comm]
          exact Nat.mul_le_mul_left _ (by omega)
    · next hl =>
        have hlh := hi.1
        have hwidth := isSibling_lt hab (hb.trans_le (hsection.resolve_left (by omega))) hi
        have hone : 2 ^ 1 ≤ 2 ^ (h - l) := Nat.pow_le_pow_right (by decide) (by omega)
        rw [pow_succ]
        omega

/-! ## The envelope -/

lemma readLe_lt {bytes : List UInt8} {offset width value : ℕ}
    (h : readLe bytes offset width = .ok value) : value < 256 ^ width := by
  obtain ⟨out, hout, hvalue⟩ := bind_eq_ok.mp h
  have hlen := slice_length (orPanic_eq_ok.mp hout)
  cases hvalue
  have hlt := leNat_lt out
  rwa [hlen, Nat.add_sub_cancel_left] at hlt

/-- What `parse_header` promises about the geometry. -/
lemma parseHeader_geometry {file : Input} {limits : ArchiveLimits} : ∀ header,
    parseHeader file limits = .ok header →
      32 ≤ header.blockSize.toNat ∧ 0 < header.blockCount.toNat ∧
        ∃ h, treeHeight header.blockCount.toNat = .ok h ∧
          header.hashLen.toNat = (2 ^ h - 1) * 32 := by
  rw [parseHeader]
  -- the fields up to the length of the payload
  iterate 18 refine forall_bind_eq_ok fun _ _ => ?_
  refine forall_bind_eq_ok fun blockSize hblockSize => ?_
  refine forall_bind_eq_ok fun _ _ => ?_
  refine forall_bind_eq_ok fun _ hmin => ?_
  refine forall_bind_eq_ok fun blockCount hblockCount => ?_
  refine forall_bind_eq_ok fun _ hcount => ?_
  refine forall_bind_eq_ok fun _ _ => ?_
  refine forall_bind_eq_ok fun _ _ => ?_
  refine forall_bind_eq_ok fun hashLen hhashLen => ?_
  iterate 4 refine forall_bind_eq_ok fun _ _ => ?_
  refine forall_bind_eq_ok fun _ hsection => ?_
  rintro header ⟨⟩
  have h₁ : (UInt32.ofNat blockSize).toNat = blockSize :=
    UInt32.toNat_ofNat_of_lt' (readLe_lt hblockSize)
  have h₂ : (UInt64.ofNat blockCount).toNat = blockCount :=
    UInt64.toNat_ofNat_of_lt' (readLe_lt hblockCount)
  have h₃ : (UInt64.ofNat hashLen).toNat = hashLen :=
    UInt64.toNat_ofNat_of_lt' (readLe_lt hhashLen)
  rw [checkHashLen] at hsection
  obtain ⟨h, hheight, hsection⟩ := bind_eq_ok.mp hsection
  obtain ⟨expected, hexpected, hsection⟩ := bind_eq_ok.mp hsection
  have hexpected := okOr_eq_ok.mp hexpected
  split at hexpected
  · have hlen : hashLen = expected := require_eq_ok.mp hsection
    simp only [h₁, h₂, h₃]
    exact ⟨require_eq_ok.mp hmin, Nat.pos_of_ne_zero (require_eq_ok.mp hcount), h, hheight,
      by rw [hlen, Option.some.inj hexpected]⟩
  · cases hexpected

/-- What `ranges_from_header` promises: the ranges have the declared lengths and lie in the
file. -/
lemma rangesFromHeader_slices {bytes : List UInt8} {header : ArchiveHeader}
    {ranges : (ℕ × ℕ) × (ℕ × ℕ)} (hranges : rangesFromHeader bytes.length header = .ok ranges) :
    ∃ payload hashSection, slice bytes ranges.1.1 ranges.1.2 = some payload ∧
      slice bytes ranges.2.1 ranges.2.2 = some hashSection ∧
      payload.length = header.payloadLen.toNat ∧ hashSection.length = header.hashLen.toNat := by
  simp only [rangesFromHeader, bind_eq_ok, pure_eq_ok, Outcome.ok.injEq] at hranges
  obtain ⟨payloadEnd, hpayload, hashEnd, hsection, _, hfile, _, -, rfl⟩ := hranges
  have hpayload := okOr_eq_ok.mp hpayload
  have hsection := okOr_eq_ok.mp hsection
  rw [checkedAdd, Option.ite_none_right_eq_some, Option.some.injEq] at hpayload hsection
  have hfile : payloadEnd ≤ bytes.length ∧ hashEnd ≤ bytes.length := require_eq_ok.mp hfile
  show ∃ payload hashSection, slice bytes payloadOffset payloadEnd = some payload ∧
    slice bytes payloadEnd hashEnd = some hashSection ∧ _
  refine ⟨_, _, slice_eq_some.mpr ⟨by omega, hfile.1, rfl⟩,
    slice_eq_some.mpr ⟨by omega, hfile.2, rfl⟩, ?_, ?_⟩
  · rw [List.length_take, List.length_drop]
    omega
  · rw [List.length_take, List.length_drop]
    omega

/-! ## Safe headers -/

/-- The block count that is declared fits the payload: the tree has all blocks unless it is a
single pair, and the leaf behind the last block is padding or starts at the end of the payload. -/
def ArchiveHeader.CountFits (header : ArchiveHeader) : Prop :=
  let filled := filledBlocks header.payloadLen.toNat header.blockSize.toNat
  header.payloadLen = 0 ∨ ∃ height, treeHeight header.blockCount.toNat = .ok height ∧
    (height ≤ 1 ∨ filled ≤ 2 ^ height) ∧
    (header.blockCount.toNat ≤ filled ∨ filled % 2 = 0 ∨
      header.blockSize.toNat ∣ header.payloadLen.toNat)

section Returned

variable {blake3 : List UInt8 → Digest} {payload hashSection : List UInt8} {header : ArchiveHeader}

/-- A proof of a range comes back when its siblings do. -/
lemma buildProof_returned_iff {h : ℕ} (hpos : 0 < header.blockSize.toNat)
    (hlen : payload.length = header.payloadLen.toNat)
    (hheight : treeHeight header.blockCount.toNat = .ok h) {offset len : UInt64} :
    (buildProof blake3 payload hashSection offset len header).Returned ↔
      (InPayload payload offset len →
        (collectSiblings blake3 payload hashSection header.blockSize.toNat
          header.blockCount.toNat h (offset.toNat / header.blockSize.toNat)
          (lastBlock offset.toNat len.toNat header.blockSize.toNat)).Returned) := by
  by_cases hin : InPayload payload offset len
  · have hblocks : mapAll (blockAt payload header.blockSize.toNat)
        (interval (offset.toNat / header.blockSize.toNat)
          (lastBlock offset.toNat len.toNat header.blockSize.toNat))
        = .ok ((interval (offset.toNat / header.blockSize.toNat)
          (lastBlock offset.toNat len.toNat header.blockSize.toNat)).map
            (blockBytes payload header.blockSize.toNat)) := by
      refine mapAll_of fun i hi => ?_
      have hlast : lastBlock _ _ header.blockSize.toNat * header.blockSize.toNat < payload.length :=
        lastBlock_mul_lt hin.1 hin.2
      have hle := Nat.mul_le_mul_right header.blockSize.toNat (mem_interval.mp hi).2
      rw [blockAt_eq, if_pos (by omega)]
    rw [buildProof, checkRange_of_inPayload hlen hin, ok_bind,
      blockRange_eq_ok.mpr ⟨hpos, rfl, rfl⟩, ok_bind]
    dsimp only
    rw [hblocks, ok_bind, hheight, ok_bind]
    cases collectSiblings blake3 payload hashSection header.blockSize.toNat
      header.blockCount.toNat h (offset.toNat / header.blockSize.toNat)
      (lastBlock offset.toNat len.toNat header.blockSize.toNat) <;> simp [hin]
  · -- the range is refused
    rw [buildProof, checkRange, checkedAdd]
    simp only [hin, false_imp_iff, iff_true]
    split
    · have hout : ¬ (offset.toNat < payload.length ∧
          offset.toNat + len.toNat ≤ payload.length) := hin
      rw [okOr_some, ok_bind, require, ← hlen, if_neg hout]
      exact returned_err _
    · exact returned_err _

end Returned

/-- **Proofs from the header alone.** On a file whose envelope is accepted the proof of every range
comes back, with a proof or an error, exactly if the declared block count fits the payload. -/
theorem proofFor_returned_iff (blake3 : List UInt8 → Digest) {file : Input} {limits : ArchiveLimits}
    {header : ArchiveHeader} {ranges : (ℕ × ℕ) × (ℕ × ℕ)}
    (hparse : parseHeader file limits = .ok header)
    (hranges : rangesFromHeader file.bytes.length header = .ok ranges) :
    (∀ offset len : UInt64, (proofFor blake3 file.bytes ranges header offset len).Returned) ↔
      header.CountFits := by
  obtain ⟨hmin, -, h, hheight, hhash⟩ := parseHeader_geometry _ hparse
  obtain ⟨payload, hashSection, hpayload, hsection, hlen, hlen'⟩ := rangesFromHeader_slices hranges
  have hpos : 0 < header.blockSize.toNat := by omega
  have hproof : ∀ offset len, proofFor blake3 file.bytes ranges header offset len
      = buildProof blake3 payload hashSection offset len header := by
    intro offset len
    rw [proofFor, hpayload, hsection]
    rfl
  simp only [hproof, buildProof_returned_iff hpos hlen hheight]
  by_cases hempty : payload = []
  · -- no range lies in an empty payload
    subst hempty
    have hzero : header.payloadLen = 0 := UInt64.toNat_inj.mp hlen.symm
    refine iff_of_true (fun offset len hin => ?_) (.inl hzero)
    exact absurd hin.1 (Nat.not_lt_zero _)
  · have hne : header.payloadLen ≠ 0 := by
      intro hzero
      rw [hzero] at hlen
      exact hempty (List.eq_nil_of_length_eq_zero hlen)
    have hfits : header.CountFits ↔ _ := or_iff_right hne
    simp only [hfits, hheight, Outcome.ok.injEq, ↓existsAndEq, true_and]
    rw [← hlen, ← siblings_returned_iff hpos hheight (hlen'.trans hhash) hempty]
    constructor
    · intro hall a b hab hb
      have hlt : b * header.blockSize.toNat < payload.length := (lt_ceil_iff hpos).mp hb
      have hle := Nat.mul_le_mul_right header.blockSize.toNat hab
      have hword : payload.length < UInt64.size := by
        rw [hlen]
        exact header.payloadLen.toNat_lt
      -- the range up to the first byte of block `b`
      obtain ⟨offset, hoffset⟩ : ∃ offset : UInt64,
          offset.toNat = a * header.blockSize.toNat :=
        ⟨.ofNat _, UInt64.toNat_ofNat_of_lt' (by omega)⟩
      obtain ⟨len, hlength⟩ : ∃ len : UInt64,
          len.toNat = b * header.blockSize.toNat + 1 - a * header.blockSize.toNat :=
        ⟨.ofNat _, UInt64.toNat_ofNat_of_lt' (by omega)⟩
      have hrange := hall offset len ⟨by omega, by omega⟩
      rwa [hoffset, lastBlock, hlength, if_neg (by omega), Nat.mul_div_cancel _ hpos,
        show a * header.blockSize.toNat + (b * header.blockSize.toNat + 1
          - a * header.blockSize.toNat) - 1 = b * header.blockSize.toNat by omega,
        Nat.mul_div_cancel _ hpos] at hrange
    · intro hall offset len hin
      refine hall _ _ (first_le_lastBlock _ _ _) ?_
      exact (lt_ceil_iff hpos).mpr (lastBlock_mul_lt hin.1 hin.2)

/-- A payload of one block, not a full one, that is declared to have two. -/
def unfittingFile : Input where
  bytes := magic ++ [4, 0, 1, 0] ++ leBytes 4 128 ++ leBytes 8 1 ++ leBytes 8 31 ++ leBytes 8 128 ++
    leBytes 8 191 ++ leBytes 4 32 ++ leBytes 8 2 ++ List.replicate 32 0 ++ leBytes 8 159 ++
    leBytes 8 32 ++ List.replicate 20 0 ++ List.replicate 31 0 ++ List.replicate 32 0
  length_le := by decide +kernel

def unfittingHeader : ArchiveHeader where
  schemaId := 1
  payloadLen := 31
  fileLen := 191
  blockSize := 32
  blockCount := 2
  root := Vector.replicate 32 0
  hashOffset := 159
  hashLen := 32

lemma unfitting_parse : parseHeader unfittingFile ArchiveLimits.new = .ok unfittingHeader := by
  decide +kernel

lemma unfitting_ranges : rangesFromHeader unfittingFile.bytes.length unfittingHeader
    = .ok ((128, 159), (159, 191)) := by
  decide +kernel

theorem proofFor_returned_iff_unfitting :
    (∀ offset len : UInt64, (proofFor Hash.digest unfittingFile.bytes ((128, 159), (159, 191))
      unfittingHeader offset len).Returned) ↔ unfittingHeader.CountFits :=
  proofFor_returned_iff Hash.digest unfitting_parse unfitting_ranges

/-- The envelope is accepted, and the proof of the first byte reads behind the payload. -/
theorem unfitting_panics :
    parseHeader unfittingFile ArchiveLimits.new = .ok unfittingHeader ∧
      rangesFromHeader unfittingFile.bytes.length unfittingHeader = .ok ((128, 159), (159, 191)) ∧
      proofFor Hash.digest unfittingFile.bytes ((128, 159), (159, 191)) unfittingHeader 0 1
        = .panic :=
  ⟨unfitting_parse, unfitting_ranges, by decide +kernel⟩

end RustBinary.Archive
