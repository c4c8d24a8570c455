import RustBinary.Archive.HeaderOnly
import RustBinary.Archive.Soundness
import RustBinary.Lib.HeapTree

/-!
# Validated archives

`validate_archive` recomputes the tree from the payload, but of the stored hash section it
compares the last hash only.  So a validated archive has proofs for every range exactly if the
stored hashes that a range can touch are those of the tree (`provable_iff`).
-/

namespace RustBinary.Archive

open Lib Lib.Outcome

/-- What an archived type gives to the validator. -/
structure Schema where
  schemaId : UInt64
  /-- `align_of::<T::Archived>()`. -/
  alignment : ℕ
  /-- `T::Archived::check_at(payload, 0)`. -/
  checkAt : List UInt8 → Outcome String Unit

/-- The last stored hash is the root; a tree of one leaf stores none. -/
def checkSectionRoot (hashSection : List UInt8) (height : ℕ) (root : Digest) : Result Unit :=
  if 0 < height then do
    let sectionRoot ← readSectionHash hashSection (2 ^ height) height height 0
    require (sectionRoot = root) (.merkle "hash section root does not match")
  else pure ()

/-- `validate_archive` of a slice at the address `base`. -/
def validateArchive (blake3 : List UInt8 → Digest) (schema : Schema) (base : ℕ) (file : Input)
    (limits : ArchiveLimits) : Result (ArchiveHeader × (ℕ × ℕ) × (ℕ × ℕ)) := do
  require (schema.schemaId ≠ 0) .invalidSchemaId
  require (schema.alignment ≤ maxArchiveAlignment)
    (.unsupportedAlignment schema.alignment maxArchiveAlignment)
  let header ← parseHeader file limits
  require (header.schemaId = schema.schemaId) (.schemaMismatch schema.schemaId header.schemaId)
  let ranges ← rangesFromHeader file.bytes.length header
  let payload ← orPanic (slice file.bytes ranges.1.1 ranges.1.2)
  require ((base + ranges.1.1) % schema.alignment = 0)
    (.validation "payload base does not satisfy archived root alignment")
  let (levels, recomputedBlocks) ← merkleLevels blake3 payload header.blockSize.toNat
  let recomputedRoot ← topHash levels
  require (recomputedRoot = header.root)
    (.merkle "payload does not match the recorded Merkle root")
  require (recomputedBlocks = header.blockCount.toNat)
    (.merkle "recorded Merkle block count does not match")
  checkHashLen header.blockCount.toNat header.hashLen.toNat
    (.merkle "hash section length overflows")
    (.merkle "recorded hash section length does not match")
  let storedRoot ← orPanic (slice file.bytes ranges.2.1 ranges.2.2)
  require (storedRoot.length = header.hashLen.toNat) (.merkle "hash section length does not match")
  let height ← treeHeight header.blockCount.toNat
  checkSectionRoot storedRoot height header.root
  (schema.checkAt payload).mapErr .validation
  pure (header, ranges)

/-- A validated archive, with its payload and its hash section. -/
structure Validated (blake3 : List UInt8 → Digest) (bytes payload hashSection : List UInt8)
    (ranges : (ℕ × ℕ) × (ℕ × ℕ)) (header : ArchiveHeader) (h : ℕ) : Prop where
  describes : Describes blake3 header payload h
  payload_eq : slice bytes ranges.1.1 ranges.1.2 = some payload
  section_eq : slice bytes ranges.2.1 ranges.2.2 = some hashSection
  section_length : hashSection.length = (2 ^ h - 1) * 32

lemma validated_of_validateArchive {blake3 : List UInt8 → Digest} {schema : Schema} {base : ℕ}
    {file : Input} {limits : ArchiveLimits} : ∀ out,
    validateArchive blake3 schema base file limits = .ok out →
      ∃ payload hashSection h, Validated blake3 file.bytes payload hashSection out.2 out.1 h := by
  rw [validateArchive]
  iterate 2 refine forall_bind_eq_ok fun _ _ => ?_
  refine forall_bind_eq_ok fun header hparse => ?_
  refine forall_bind_eq_ok fun _ _ => ?_
  refine forall_bind_eq_ok fun ranges hranges => ?_
  refine forall_bind_eq_ok fun payload hpayload => ?_
  refine forall_bind_eq_ok fun _ _ => ?_
  refine forall_bind_eq_ok fun ⟨levels, blockCount⟩ hlevels => ?_
  refine forall_bind_eq_ok fun root htop => ?_
  refine forall_bind_eq_ok fun _ hroot => ?_
  refine forall_bind_eq_ok fun _ hcount => ?_
  iterate 6 refine forall_bind_eq_ok fun _ _ => ?_
  rintro out ⟨⟩
  obtain ⟨hmin, -, h, hheight, hhash⟩ := parseHeader_geometry header hparse
  obtain ⟨payload', hashSection, hpayload', hsection, hlen, hlen'⟩ :=
    rangesFromHeader_slices hranges
  obtain rfl : payload' = payload :=
    Option.some.inj (hpayload'.symm.trans (orPanic_eq_ok.mp hpayload))
  have hroot : root = header.root := require_eq_ok.mp hroot
  have hcount : blockCount = header.blockCount.toNat := require_eq_ok.mp hcount
  subst hroot hcount
  obtain ⟨hpos, hblocks, height, hheight', rfl⟩ := merkleLevels_eq_ok.mp hlevels
  obtain rfl : height = h := Outcome.ok.inj (hheight'.symm.trans hheight)
  have htop := orPanic_eq_ok.mp htop
  rw [levelsAbove_last (isLabelling_treeLabel _ _ _ _), Option.some.injEq] at htop
  exact ⟨payload', hashSection, height, {
    describes := ⟨hpos, hlen.symm, hblocks, hheight, htop⟩
    payload_eq := hpayload'
    section_eq := hsection
    section_length := hlen'.trans hhash }⟩

/-! ## Provable ranges -/

/-- Two labellings that agree on the siblings of a plan give it the same hashes. -/
lemma planHashes_congr {S S' : ℕ → ℕ → Digest} {k a b : ℕ} (hab : a ≤ b)
    (h : ∀ l i, IsSibling a b k l i → S l i = S' l i) :
    planHashes S (planLoop k (interval a b)) = planHashes S' (planLoop k (interval a b)) := by
  induction k generalizing S S' a b with
  | zero => rfl
  | succ k ih =>
      rw [planLoop_interval hab, planHashes, planHashes]
      congr 1
      · refine List.map_congr_left fun i hi => h 0 i ⟨Nat.succ_pos k, ?_⟩
        rwa [pow_zero, Nat.div_one, Nat.div_one]
      · exact ih (Nat.div_le_div_right hab) fun l i hi => h (l + 1) i (isSibling_succ.mpr hi)

lemma xor_one_of_mem_leftEdge {a i : ℕ} (h : i ∈ leftEdge a) : i ^^^ 1 = a := by
  rw [leftEdge] at h
  split at h
  · next hodd =>
      rw [List.mem_singleton.mp h, show a - 1 = 2 * (a / 2) by omega, HeapTree.xor_one_left]
      omega
  · simp at h

lemma xor_one_of_mem_rightEdge {b i : ℕ} (h : i ∈ rightEdge b) : i ^^^ 1 = b := by
  rw [rightEdge] at h
  split at h
  · next heven =>
      rw [List.mem_singleton.mp h, show b + 1 = 2 * (b / 2) + 1 by omega, HeapTree.xor_one_right]
      omega
  · simp at h

/-- The sibling of a node stands at one of its sides. -/
lemma xor_one_mem_edges (i : ℕ) : i ∈ leftEdge (i ^^^ 1) ++ rightEdge (i ^^^ 1) := by
  rcases HeapTree.left_or_right i with hleft | hright
  · -- a left child is in front of its sibling
    refine List.mem_append_left _ ?_
    rw [hleft, HeapTree.xor_one_left, leftEdge, if_pos (by omega)]
    simp
  · refine List.mem_append_right _ ?_
    rw [hright, HeapTree.xor_one_right, rightEdge, if_pos (by omega)]
    simp

/-- The sibling of a sibling of covered blocks is over a covered block. -/
lemma IsSibling.mul_le {a b h l i : ℕ} (hab : a ≤ b) (hi : IsSibling a b h l i) :
    (i ^^^ 1) * 2 ^ l ≤ b := by
  rcases List.mem_append.mp hi.2 with hleft | hright
  · rw [xor_one_of_mem_leftEdge hleft]
    exact (Nat.div_mul_le_self _ _).trans hab
  · rw [xor_one_of_mem_rightEdge hright]
    exact Nat.div_mul_le_self _ _

variable {blake3 : List UInt8 → Digest} {bytes payload hashSection : List UInt8}
  {ranges : (ℕ × ℕ) × (ℕ × ℕ)} {header : ArchiveHeader} {h : ℕ}

/-- Every range has a proof that is accepted and gives the range. -/
def Provable (blake3 : List UInt8 → Digest) (bytes payload : List UInt8)
    (ranges : (ℕ × ℕ) × (ℕ × ℕ)) (header : ArchiveHeader) : Prop :=
  ∀ offset len : UInt64, InPayload payload offset len →
    ∃ proof, proofFor blake3 bytes ranges header offset len = .ok proof ∧
      proof.verify blake3 = .ok () ∧
      proof.extract blake3 = .ok ((payload.drop offset.toNat).take len.toNat)

/-- The stored hashes below the root that are siblings of nodes over blocks are those of the
tree. -/
def SectionMatches (blake3 : List UInt8 → Digest) (payload hashSection : List UInt8)
    (header : ArchiveHeader) (h : ℕ) : Prop :=
  ∀ l i, 0 < l → l < h → (i ^^^ 1) * 2 ^ l < header.blockCount.toNat →
    readSectionHash hashSection (2 ^ h) h l i = .ok (header.tree blake3 payload l i)

namespace Validated

/-- What the section stores, with the leaves of the payload under it. -/
lemma exists_stores (hv : Validated blake3 bytes payload hashSection ranges header h) :
    ∃ S, Stores hashSection h S ∧ S 0 = header.tree blake3 payload 0 := by
  refine ⟨fun l i => if l = 0 then header.tree blake3 payload 0 i
    else (readSectionHash hashSection (2 ^ h) h l i).ok?.getD (Vector.replicate 32 0), ?_, rfl⟩
  intro l i hpos hl hi
  have hthere : (readSectionHash hashSection (2 ^ h) h l i).Returned := by
    rw [readSectionHash_returned_iff hv.section_length hpos hl, pow_succ]
    omega
  obtain ⟨d, hd⟩ := hthere.eq_ok (readSectionHash_ne_err _ _ l i)
  simp only [if_neg (show l ≠ 0 by omega), hd]
  rfl

lemma proofFor_eq (hv : Validated blake3 bytes payload hashSection ranges header h)
    (offset len : UInt64) : proofFor blake3 bytes ranges header offset len
      = buildProof blake3 payload hashSection offset len header := by
  rw [proofFor, hv.payload_eq, hv.section_eq]
  rfl

/-- Where the section matches, every range is provable. -/
lemma provable_of_matches (hv : Validated blake3 bytes payload hashSection ranges header h)
    (hsize : payload.length < 2 ^ 63)
    (hmatch : SectionMatches blake3 payload hashSection header h) :
    Provable blake3 bytes payload ranges header := by
  obtain ⟨S, hs, hleaf⟩ := hv.exists_stores
  intro offset len hin
  have hd := hv.describes
  have hfirst := (rangeProof header payload S h offset len).first_le_last
  have hlast : (rangeProof header payload S h offset len).last < header.blockCount.toNat :=
    hd.last_lt hin
  have hsiblings : (rangeProof header payload S h offset len).siblings
      = planHashes (header.tree blake3 payload) (computePlan
          (rangeProof header payload S h offset len).first
          (rangeProof header payload S h offset len).last h) := by
    refine planHashes_congr hfirst fun l i hi => ?_
    rcases Nat.eq_zero_or_pos l with rfl | hpos
    · rw [hleaf]
    · have hstored := hs l i hpos hi.1.le
        (isSibling_lt hfirst (hlast.trans_le hd.blockCount_le) hi)
      have hlabel := hmatch l i hpos hi.1 ((hi.mul_le hfirst).trans_lt hlast)
      exact Outcome.ok.inj (hstored.symm.trans hlabel)
  have hverify := hd.verify_rangeProof hin hsiblings
  refine ⟨_, (hv.proofFor_eq offset len).trans (hd.buildProof_eq hs hleaf hin), hverify, ?_⟩
  have hlen := hin.2
  exact hd.extract_rangeProof hin (by omega) hverify

/-- Where no proof meets a collision, provable ranges show that the section matches. -/
lemma matches_of_provable (hv : Validated blake3 bytes payload hashSection ranges header h)
    (hf : ∀ offset len proof, proofFor blake3 bytes ranges header offset len = .ok proof →
      CollisionFree blake3
        (archiveInputs blake3 payload header.blockSize.toNat ++ proof.hashInputs blake3))
    (hprovable : Provable blake3 bytes payload ranges header) :
    SectionMatches blake3 payload hashSection header h := by
  obtain ⟨S, hs, hleaf⟩ := hv.exists_stores
  intro l i hpos hl hcovered
  have hd := hv.describes
  obtain ⟨q, hq⟩ : ∃ q, q = (i ^^^ 1) * 2 ^ l := ⟨_, rfl⟩
  rw [← hq] at hcovered
  -- the empty range at the start of the first block under the sibling
  have hstart : q * header.blockSize.toNat < payload.length := by
    have hmany := (treeHeight_eq_ok.mp hd.height_eq).2.1.resolve_left (by omega)
    have htwo : 2 ^ 1 ≤ 2 ^ (h - 1) := Nat.pow_le_pow_right (by decide) (by omega)
    refine (lt_ceil_iff hd.blockSize_pos).mp ?_
    rw [hd.blockCount_eq, blockTotal] at hcovered hmany
    omega
  have hword : payload.length < UInt64.size := by
    rw [← hd.payloadLen_eq]
    exact header.payloadLen.toNat_lt
  obtain ⟨offset, hoffset⟩ : ∃ offset : UInt64, offset.toNat = q * header.blockSize.toNat :=
    ⟨.ofNat _, UInt64.toNat_ofNat_of_lt' (by omega)⟩
  have hin : InPayload payload offset 0 := by
    refine ⟨by omega, ?_⟩
    show offset.toNat + 0 ≤ payload.length
    omega
  have hfirst : (rangeProof header payload S h offset 0).first = q := by
    show offset.toNat / header.blockSize.toNat = q
    rw [hoffset, Nat.mul_div_cancel _ hd.blockSize_pos]
  have hlast : (rangeProof header payload S h offset 0).last = q := hfirst
  have hproof := (hv.proofFor_eq offset 0).trans (hd.buildProof_eq hs hleaf hin)
  obtain ⟨proof, hbuilt, hverify, -⟩ := hprovable offset 0 hin
  obtain rfl := Outcome.ok.inj (hproof.symm.trans hbuilt)
  obtain ⟨k, hk, -, -, hcount, hreplay⟩ := MerkleProof.verify_eq_ok.mp hverify
  obtain rfl : k = h := Outcome.ok.inj (hk.symm.trans hd.height_eq)
  have htree : treeInputs blake3 payload header.blockSize.toNat header.blockCount.toNat k
      ⊆ archiveInputs blake3 payload header.blockSize.toNat
        ++ (rangeProof header payload S k offset 0).hashInputs blake3 := by
    rw [archiveInputs, ← hd.blockCount_eq, hd.height_eq]
    exact List.subset_append_left _ _
  obtain ⟨-, -, hsiblings⟩ := replayed_of_verify (hf offset 0 _ hproof) htree
    (List.subset_append_right _ _) hd.root_eq hk hcount hreplay
  have hsib : IsSibling (rangeProof header payload S k offset 0).first
      (rangeProof header payload S k offset 0).last k l i := by
    rw [hfirst, hlast, IsSibling, hq, Nat.mul_div_cancel _ (Nat.two_pow_pos l)]
    exact ⟨hl, xor_one_mem_edges i⟩
  have hwidth : i < 2 ^ (k - l) := by
    refine isSibling_lt (Nat.le_refl q) (hcovered.trans_le hd.blockCount_le) ?_
    rwa [hfirst, hlast] at hsib
  have hlabel : S l i = replayed (header.tree blake3 payload) k k l i :=
    planHashes_inj (rangeProof header payload S k offset 0).first_le_last hsiblings hsib
  rw [hs l i hpos hl.le hwidth, hlabel, replayed, Nat.sub_self, Nat.zero_add,
    Nat.mod_eq_of_lt hwidth]

end Validated

/-- **Provable ranges.** A validated archive has a proof for every range if the stored hashes that
a proof can read are those of the tree; and, as long as no proof meets a collision of the hash,
only then. -/
theorem provable_iff {blake3 : List UInt8 → Digest} {schema : Schema} {base : ℕ} {file : Input}
    {limits : ArchiveLimits} {header : ArchiveHeader} {ranges : (ℕ × ℕ) × (ℕ × ℕ)}
    {payload hashSection : List UInt8} {h : ℕ} (hsize : file.bytes.length < 2 ^ 63)
    (hvalid : validateArchive blake3 schema base file limits = .ok (header, ranges))
    (hpayload : slice file.bytes ranges.1.1 ranges.1.2 = some payload)
    (hsection : slice file.bytes ranges.2.1 ranges.2.2 = some hashSection)
    (hheight : treeHeight header.blockCount.toNat = .ok h) :
    (SectionMatches blake3 payload hashSection header h →
      Provable blake3 file.bytes payload ranges header) ∧
    ((∀ offset len proof, proofFor blake3 file.bytes ranges header offset len = .ok proof →
        CollisionFree blake3
          (archiveInputs blake3 payload header.blockSize.toNat ++ proof.hashInputs blake3)) →
      Provable blake3 file.bytes payload ranges header →
      SectionMatches blake3 payload hashSection header h) := by
  obtain ⟨payload', hashSection', h', hv⟩ := validated_of_validateArchive _ hvalid
  obtain rfl := Option.some.inj (hpayload.symm.trans hv.payload_eq)
  obtain rfl := Option.some.inj (hsection.symm.trans hv.section_eq)
  obtain rfl := Outcome.ok.inj (hheight.symm.trans hv.describes.height_eq)
  have hshort : payload.length < 2 ^ 63 := by
    have hlen := slice_length hpayload
    have hstop := (slice_eq_some.mp hpayload).2.1
    omega
  exact ⟨hv.provable_of_matches hshort, hv.matches_of_provable⟩

/-! ## A file with a stored hash that is not that of the tree -/

/-- A root of bytes has no pointers to follow. -/
def byteSchema : Schema where
  schemaId := 1
  alignment := 1
  checkAt := fun _ => .ok ()

/-- The section of the sample, with zeros for the first node. -/
def tamperedSection : List UInt8 :=
  List.replicate 32 0 ++ sampleRight.toList ++ sampleRoot.toList

def tamperedFile : Input where
  bytes := magic ++ [4, 0, 1, 0] ++ leBytes 4 128 ++ leBytes 8 1 ++ leBytes 8 160 ++ leBytes 8 128 ++
    leBytes 8 384 ++ leBytes 4 64 ++ leBytes 8 3 ++ sampleRoot.toList ++ leBytes 8 288 ++
    leBytes 8 96 ++ List.replicate 20 0 ++ samplePayload ++ tamperedSection
  length_le := by decide +kernel

def tamperedHeader : ArchiveHeader where
  schemaId := 1
  payloadLen := 160
  fileLen := 384
  blockSize := 64
  blockCount := 3
  root := sampleRoot
  hashOffset := 288
  hashLen := 96

/-- The proof of the last block, with the stored zeros as a sibling. -/
def tamperedProof : MerkleProof where
  offset := 128
  len := 32
  blockSize := 64
  blockCount := 3
  payloadLen := 160
  blocks := [List.replicate 32 2]
  siblings := [samplePad₃, Vector.replicate 32 0]
  root := sampleRoot

lemma tampered_valid : validateArchive sampleHash byteSchema 0 tamperedFile ArchiveLimits.new
    = .ok (tamperedHeader, ((128, 288), (288, 384))) := by
  decide +kernel

theorem provable_iff_tampered :
    (SectionMatches sampleHash samplePayload tamperedSection tamperedHeader 2 →
      Provable sampleHash tamperedFile.bytes samplePayload ((128, 288), (288, 384))
        tamperedHeader) ∧
    ((∀ offset len proof, proofFor sampleHash tamperedFile.bytes ((128, 288), (288, 384))
          tamperedHeader offset len = .ok proof →
        CollisionFree sampleHash (archiveInputs sampleHash samplePayload 64
          ++ proof.hashInputs sampleHash)) →
      Provable sampleHash tamperedFile.bytes samplePayload ((128, 288), (288, 384))
        tamperedHeader →
      SectionMatches sampleHash samplePayload tamperedSection tamperedHeader 2) :=
  provable_iff (by decide +kernel) tampered_valid (by decide +kernel) (by decide +kernel)
    (by decide +kernel)

/-- The file is validated, and its proof of the last block is not accepted. -/
theorem tampered_unprovable :
    validateArchive sampleHash byteSchema 0 tamperedFile ArchiveLimits.new
        = .ok (tamperedHeader, ((128, 288), (288, 384))) ∧
      proofFor sampleHash tamperedFile.bytes ((128, 288), (288, 384)) tamperedHeader 128 32
        = .ok tamperedProof ∧
      tamperedProof.verify sampleHash = .err (.merkle "root digest does not match") :=
  ⟨tampered_valid, by decide +kernel, by decide +kernel⟩

end RustBinary.Archive
