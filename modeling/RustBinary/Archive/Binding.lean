import RustBinary.Archive.Validate

/-!
# What the root of an archive binds

The root is a hash over the tree alone: neither the number of blocks nor their size is in it.  With
a hash that has no collision it determines the payload all the same, for the domains of leaves,
padding and nodes keep the trees of two archives apart unless they have the same shape, and the
payload is the blocks one behind the other.
-/

namespace RustBinary.Archive

open Lib Lib.Outcome

section Trees

variable {blake3 : List UInt8 → Digest} {inputs : List (List UInt8)} {payload payload' : List UInt8}
  {blockSize blockSize' blockCount blockCount' h h' : ℕ}

/-- What is hashed for the leaves is equal where their labels are. -/
lemma leafInputAt_eq (hf : CollisionFree blake3 inputs)
    (hsub : treeInputs blake3 payload blockSize blockCount h ⊆ inputs)
    (hsub' : treeInputs blake3 payload' blockSize' blockCount' h ⊆ inputs) {i : ℕ}
    (hi : i < 2 ^ h) (heq : treeLabel blake3 payload blockSize blockCount 0 i
      = treeLabel blake3 payload' blockSize' blockCount' 0 i) :
    leafInputAt payload blockSize blockCount i = leafInputAt payload' blockSize' blockCount' i := by
  have hleaf : leafLabel blake3 payload blockSize blockCount i
      = leafLabel blake3 payload' blockSize' blockCount' i := heq
  rw [leafLabel_eq, leafLabel_eq] at hleaf
  exact hf _ (leafInputAt_mem hsub hi) _ (leafInputAt_mem hsub' hi) hleaf

/-- Trees with one root have the same labels, level by level from the top. -/
lemma treeLabel_eq_of_root_eq (hf : CollisionFree blake3 inputs)
    (hsub : treeInputs blake3 payload blockSize blockCount h ⊆ inputs)
    (hsub' : treeInputs blake3 payload' blockSize' blockCount' h' ⊆ inputs)
    (hroot : treeLabel blake3 payload blockSize blockCount h 0
      = treeLabel blake3 payload' blockSize' blockCount' h' 0) :
    ∀ d, d ≤ h → d ≤ h' → ∀ i < 2 ^ d,
      treeLabel blake3 payload blockSize blockCount (h - d) i
        = treeLabel blake3 payload' blockSize' blockCount' (h' - d) i := by
  refine IsLabelling.eq_of_root_eq (isLabelling_treeLabel blake3 payload blockSize blockCount)
    (isLabelling_treeLabel blake3 payload' blockSize' blockCount') hroot ?_
  intro l m i hl hm hi hi' heq
  exact nodeInput_inj (hf _ (nodeInput_mem hsub hl hi) _ (nodeInput_mem hsub' hm hi') heq)

/-- A leaf of one tree is not a node of the other. -/
lemma height_le_of_root_eq (hf : CollisionFree blake3 inputs)
    (hsub : treeInputs blake3 payload blockSize blockCount h ⊆ inputs)
    (hsub' : treeInputs blake3 payload' blockSize' blockCount' h' ⊆ inputs)
    (hroot : treeLabel blake3 payload blockSize blockCount h 0
      = treeLabel blake3 payload' blockSize' blockCount' h' 0) : h' ≤ h := by
  refine Nat.le_of_not_lt fun hlt => ?_
  have heq := treeLabel_eq_of_root_eq hf hsub hsub' hroot h le_rfl hlt.le 0 (Nat.two_pow_pos h)
  obtain ⟨l, rfl⟩ : ∃ l, h' = l + (h + 1) := ⟨h' - (h + 1), by omega⟩
  rw [Nat.sub_self, show l + (h + 1) - h = l + 1 by omega, isLabelling_treeLabel] at heq
  change leafLabel blake3 payload blockSize blockCount 0 = _ at heq
  rw [leafLabel_eq] at heq
  have hnode := nodeInput_mem hsub' (show l < l + (h + 1) by omega)
    (show 0 < 2 ^ (l + (h + 1) - (l + 1)) from Nat.two_pow_pos _)
  exact nodeInput_ne_leafInputAt _ _ 0
    (hf _ (leafInputAt_mem hsub (Nat.two_pow_pos h)) _ hnode heq).symm

/-- The leaves tell how many blocks there are. -/
lemma blockCount_le_of_leafInputAt_eq (hcount : blockCount ≤ 2 ^ h)
    (heq : ∀ i < 2 ^ h, leafInputAt payload blockSize blockCount i
      = leafInputAt payload' blockSize' blockCount' i) : blockCount ≤ blockCount' := by
  refine Nat.le_of_not_lt fun hlt => ?_
  have hone := heq blockCount' (hlt.trans_le hcount)
  rw [leafInputAt, leafInputAt, if_pos hlt, if_neg (Nat.lt_irrefl _)] at hone
  exact leafInput_ne_padInput _ _ _ hone

lemma payload_eq_flatten (hpos : 0 < blockSize) (payload : List UInt8) :
    ((interval 0 (blockTotal payload.length blockSize - 1)).map
      (blockBytes payload blockSize)).flatten = payload := by
  rw [flatten_blocks payload blockSize (Nat.zero_le _), Nat.zero_mul, List.drop_zero]
  refine List.take_of_length_le ?_
  have hfew : ¬ blockTotal payload.length blockSize < (payload.length + (blockSize - 1)) / blockSize :=
    Nat.not_lt.mpr (le_max_left _ _)
  rw [lt_ceil_iff hpos] at hfew
  have hone : 1 ≤ blockTotal payload.length blockSize := le_max_right _ _
  rw [Nat.sub_zero, Nat.sub_add_cancel hone]
  omega

/-- The payloads of two trees with one root. -/
lemma payload_eq_of_tree (hf : CollisionFree blake3 inputs) (hpos : 0 < blockSize)
    (hpos' : 0 < blockSize') (hcount : blockTotal payload.length blockSize = blockCount)
    (hcount' : blockTotal payload'.length blockSize' = blockCount') (hle : blockCount ≤ 2 ^ h)
    (hle' : blockCount' ≤ 2 ^ h')
    (hsub : treeInputs blake3 payload blockSize blockCount h ⊆ inputs)
    (hsub' : treeInputs blake3 payload' blockSize' blockCount' h' ⊆ inputs)
    (hh : h ≤ 63)
    (hroot : treeLabel blake3 payload blockSize blockCount h 0
      = treeLabel blake3 payload' blockSize' blockCount' h' 0) :
    payload = payload' ∧ blockCount = blockCount' ∧ (1 < blockCount → blockSize = blockSize') := by
  obtain rfl : h = h' := Nat.le_antisymm (height_le_of_root_eq hf hsub' hsub hroot.symm)
    (height_le_of_root_eq hf hsub hsub' hroot)
  have hlabels := treeLabel_eq_of_root_eq hf hsub hsub' hroot h le_rfl le_rfl
  rw [Nat.sub_self] at hlabels
  have hleaves : ∀ i < 2 ^ h, leafInputAt payload blockSize blockCount i
      = leafInputAt payload' blockSize' blockCount' i :=
    fun i hi => leafInputAt_eq hf hsub hsub' hi (hlabels i hi)
  obtain rfl : blockCount = blockCount' :=
    Nat.le_antisymm (blockCount_le_of_leafInputAt_eq hle hleaves)
      (blockCount_le_of_leafInputAt_eq hle' fun i hi => (hleaves i hi).symm)
  have hwidth : 2 ^ h < 2 ^ 64 := Nat.pow_lt_pow_right (by decide) (by omega)
  have hblocks : ∀ i < blockCount, blockBytes payload blockSize i
      = blockBytes payload' blockSize' i := by
    intro i hi
    have hone := hleaves i (hi.trans_le hle)
    rw [leafInputAt, leafInputAt, if_pos hi, if_pos hi] at hone
    have hword : i < 2 ^ 64 := (hi.trans_le hle).trans hwidth
    exact (leafInput_inj hword hword hone).2
  have hall : payload = payload' := by
    rw [← payload_eq_flatten hpos payload, ← payload_eq_flatten hpos' payload', hcount, hcount']
    refine congrArg List.flatten (List.map_congr_left fun i hi => hblocks i ?_)
    have hone : 1 ≤ blockCount := hcount ▸ le_max_right _ _
    rw [mem_interval] at hi
    omega
  refine ⟨hall, rfl, fun hmany => ?_⟩
  subst hall
  -- of several blocks the first one is full
  have hfull : ∀ {size : ℕ}, 0 < size → blockTotal payload.length size = blockCount →
      (blockBytes payload size 0).length = size := by
    intro size hsize htotal
    have hsecond : 1 < (payload.length + (size - 1)) / size := by
      rw [blockTotal] at htotal
      omega
    rw [lt_ceil_iff hsize] at hsecond
    rw [length_blockBytes]
    omega
  rw [← hfull hpos hcount, ← hfull hpos' hcount', hblocks 0 (by omega)]

end Trees

/-- **What the root binds.**  Two archives that are accepted under one root have the same payload,
in the same number of blocks; and the blocks have the same size, unless there is only one. -/
theorem payload_eq_of_root_eq {blake3 : List UInt8 → Digest} {schema schema' : Schema}
    {base base' : ℕ} {file file' : Input} {limits limits' : ArchiveLimits}
    {header header' : ArchiveHeader} {ranges ranges' : (ℕ × ℕ) × (ℕ × ℕ)}
    {payload payload' : List UInt8}
    (hvalid : validateArchive blake3 schema base file limits = .ok (header, ranges))
    (hvalid' : validateArchive blake3 schema' base' file' limits' = .ok (header', ranges'))
    (hpayload : slice file.bytes ranges.1.1 ranges.1.2 = some payload)
    (hpayload' : slice file'.bytes ranges'.1.1 ranges'.1.2 = some payload')
    (hf : CollisionFree blake3 (archiveInputs blake3 payload header.blockSize.toNat ++
      archiveInputs blake3 payload' header'.blockSize.toNat))
    (hroot : header.root = header'.root) :
    payload = payload' ∧ header.blockCount = header'.blockCount ∧
      (1 < header.blockCount.toNat → header.blockSize = header'.blockSize) := by
  obtain ⟨_, _, h, hv⟩ := validated_of_validateArchive _ hvalid
  obtain ⟨_, _, h', hv'⟩ := validated_of_validateArchive _ hvalid'
  obtain rfl := Option.some.inj (hv.payload_eq.symm.trans hpayload)
  obtain rfl := Option.some.inj (hv'.payload_eq.symm.trans hpayload')
  have hd := hv.describes
  have hd' := hv'.describes
  have hroots := hd.root_eq.trans (hroot.trans hd'.root_eq.symm)
  rw [archiveInputs, archiveInputs, ← hd.blockCount_eq, ← hd'.blockCount_eq, hd.height_eq,
    hd'.height_eq] at hf
  obtain ⟨hall, hcount, hsize⟩ := payload_eq_of_tree hf hd.blockSize_pos hd'.blockSize_pos
    hd.blockCount_eq.symm hd'.blockCount_eq.symm hd.blockCount_le hd'.blockCount_le
    (List.subset_append_left _ _) (List.subset_append_right _ _)
    (treeHeight_eq_ok.mp hd.height_eq).2.2 hroots
  exact ⟨hall, UInt64.toNat_inj.mp hcount, fun hmany => UInt32.toNat_inj.mp (hsize hmany)⟩

/-- The sample under another schema identifier, with the hashes of the tree in its section. -/
def genuineFile : Input where
  bytes := magic ++ [4, 0, 1, 0] ++ leBytes 4 128 ++ leBytes 8 2 ++ leBytes 8 160 ++ leBytes 8 128 ++
    leBytes 8 384 ++ leBytes 4 64 ++ leBytes 8 3 ++ sampleRoot.toList ++ leBytes 8 288 ++
    leBytes 8 96 ++ List.replicate 20 0 ++ samplePayload ++
    (sampleLeft.toList ++ sampleRight.toList ++ sampleRoot.toList)
  length_le := by decide +kernel

def genuineHeader : ArchiveHeader := { tamperedHeader with schemaId := 2 }

lemma genuine_valid : validateArchive sampleHash { byteSchema with schemaId := 2 } 0 genuineFile
    ArchiveLimits.new = .ok (genuineHeader, ((128, 288), (288, 384))) := by
  decide +kernel

/-- Neither the identifier of the schema nor the stored hashes are bound. -/
theorem payload_eq_of_root_eq_tampered :
    samplePayload = samplePayload ∧ tamperedHeader.blockCount = genuineHeader.blockCount ∧
      (1 < tamperedHeader.blockCount.toNat →
        tamperedHeader.blockSize = genuineHeader.blockSize) :=
  payload_eq_of_root_eq tampered_valid genuine_valid (by decide +kernel) (by decide +kernel)
    (by decide +kernel) rfl

end RustBinary.Archive
