import RustBinary.Archive.Completeness

/-!
# What an accepted range proof binds

On inputs without a collision the root binds the height of the tree, and the covered blocks with
their indices (`blocks_of_verify`).  It does not bind the block size: a proof divides its offset
by a block size of its own, so extraction cuts the bytes out of the right blocks at a position
that need not be the one that was asked for (`extract_sound_iff`).
-/

namespace RustBinary.Archive

open Lib Lib.Outcome

/-! ## Hash inputs -/

lemma leafInput_inj {i j : ℕ} (hi : i < 2 ^ 64) (hj : j < 2 ^ 64) {block block' : List UInt8}
    (h : leafInput i block = leafInput j block') : i = j ∧ block = block' := by
  obtain ⟨hindex, hblock⟩ := List.append_inj (List.cons.inj h).2 (by simp)
  exact ⟨(beBytes_inj (by simpa using hi) (by simpa using hj)).mp hindex, hblock⟩

lemma nodeInput_inj {a b l r : Digest} (h : nodeInput a b = nodeInput l r) : a = l ∧ b = r := by
  obtain ⟨hl, hr⟩ := List.append_inj (List.cons.inj h).2 (by simp)
  exact ⟨Vector.toList_inj.mp hl, Vector.toList_inj.mp hr⟩

lemma nodeInput_ne_leafInput (l r : Digest) (index : ℕ) (block : List UInt8) :
    nodeInput l r ≠ leafInput index block := by
  intro h
  exact absurd (List.cons.inj h).1 (by decide)

lemma nodeInput_ne_padInput (l r : Digest) (index : ℕ) : nodeInput l r ≠ padInput index := by
  intro h
  exact absurd (List.cons.inj h).1 (by decide)

lemma leafInput_ne_padInput (i : ℕ) (block : List UInt8) (j : ℕ) : leafInput i block ≠ padInput j := by
  intro h
  exact absurd (List.cons.inj h).1 (by decide)

section Inputs

variable (blake3 : List UInt8 → Digest)

/-- The hash has no collision on `inputs`. -/
def CollisionFree (inputs : List (List UInt8)) : Prop :=
  ∀ x ∈ inputs, ∀ y ∈ inputs, blake3 x = blake3 y → x = y

instance (inputs : List (List UInt8)) : Decidable (CollisionFree blake3 inputs) := by
  unfold CollisionFree
  infer_instance

/-- What is hashed for a leaf of the tree. -/
def leafInputAt (payload : List UInt8) (blockSize blockCount index : ℕ) : List UInt8 :=
  if index < blockCount then leafInput index (blockBytes payload blockSize index)
  else padInput index

/-- What is hashed for a tree of height `h`. -/
def treeInputs (payload : List UInt8) (blockSize blockCount h : ℕ) : List (List UInt8) :=
  (List.range (2 ^ h)).map (leafInputAt payload blockSize blockCount) ++
    (List.range h).flatMap fun l => (List.range (2 ^ (h - (l + 1)))).map fun i =>
      nodeInput (treeLabel blake3 payload blockSize blockCount l (2 * i))
        (treeLabel blake3 payload blockSize blockCount l (2 * i + 1))

/-- What `merkle_levels` hashes. -/
def archiveInputs (payload : List UInt8) (blockSize : ℕ) : List (List UInt8) :=
  match treeHeight (blockTotal payload.length blockSize) with
  | .ok h => treeInputs blake3 payload blockSize (blockTotal payload.length blockSize) h
  | _ => []

/-- What `verify` hashes. -/
def MerkleProof.hashInputs (proof : MerkleProof) : List (List UInt8) :=
  proof.blocks.zipIdx.map (fun p => leafInput (proof.first + p.2) p.1) ++
    match treeHeight proof.blockCount.toNat with
    | .ok h =>
        (hashedPairs (nodeHash blake3) (computePlan proof.first proof.last h)
          (proof.leafHashes blake3 proof.first) proof.siblings).map fun p => nodeInput p.1 p.2
    | _ => []

end Inputs

/-! ## Binding -/

section Binding

variable {blake3 : List UInt8 → Digest} {payload : List UInt8} {blockSize blockCount h : ℕ}
  {inputs : List (List UInt8)}

lemma leafLabel_eq (index : ℕ) : leafLabel blake3 payload blockSize blockCount index
    = blake3 (leafInputAt payload blockSize blockCount index) := by
  rw [leafLabel, leafInputAt]
  split <;> rfl

lemma leafInputAt_mem (hsub : treeInputs blake3 payload blockSize blockCount h ⊆ inputs) {i : ℕ}
    (hi : i < 2 ^ h) : leafInputAt payload blockSize blockCount i ∈ inputs :=
  hsub (List.mem_append_left _ (List.mem_map.mpr ⟨i, List.mem_range.mpr hi, rfl⟩))

lemma nodeInput_mem (hsub : treeInputs blake3 payload blockSize blockCount h ⊆ inputs) {l i : ℕ}
    (hl : l < h) (hi : i < 2 ^ (h - (l + 1))) :
    nodeInput (treeLabel blake3 payload blockSize blockCount l (2 * i))
      (treeLabel blake3 payload blockSize blockCount l (2 * i + 1)) ∈ inputs :=
  hsub (List.mem_append_right _ (List.mem_flatMap.mpr ⟨l, List.mem_range.mpr hl,
    List.mem_map.mpr ⟨i, List.mem_range.mpr hi, rfl⟩⟩))

lemma nodeInput_ne_leafInputAt (l r : Digest) (index : ℕ) :
    nodeInput l r ≠ leafInputAt payload blockSize blockCount index := by
  rw [leafInputAt]
  split
  · exact nodeInput_ne_leafInput l r index _
  · exact nodeInput_ne_padInput l r index

/-- On inputs without a collision the hash binds the labels of the tree. -/
lemma bindsLevels_of_collisionFree (hf : CollisionFree blake3 inputs)
    (hsub : treeInputs blake3 payload blockSize blockCount h ⊆ inputs)
    {pairs : List (Digest × Digest)} (hpairs : ∀ p ∈ pairs, nodeInput p.1 p.2 ∈ inputs) :
    BindsLevels (nodeHash blake3) (treeLabel blake3 payload blockSize blockCount) h pairs where
  children p hp l i hl hi heq := by
    obtain ⟨hleft, hright⟩ := nodeInput_inj
      (hf _ (hpairs p hp) _ (nodeInput_mem hsub hl hi) heq)
    exact Prod.ext hleft hright
  notLeaf p hp i hi heq := by
    have hleaf : blake3 (nodeInput p.1 p.2)
        = blake3 (leafInputAt payload blockSize blockCount i) :=
      heq.trans (leafLabel_eq i)
    exact nodeInput_ne_leafInputAt p.1 p.2 i
      (hf _ (hpairs p hp) _ (leafInputAt_mem hsub hi) hleaf)

/-- A block that hashes to a label of the tree is a block of the payload, at its index. -/
lemma block_of_leafHash (hf : CollisionFree blake3 inputs)
    (hsub : treeInputs blake3 payload blockSize blockCount h ⊆ inputs) (hh : h ≤ 63) {index : ℕ}
    (hindex : index < 2 ^ 64) {block : List UInt8} (hmem : leafInput index block ∈ inputs)
    {l i : ℕ} (hl : l ≤ h) (hi : i < 2 ^ (h - l))
    (heq : leafHash blake3 index block = treeLabel blake3 payload blockSize blockCount l i) :
    l = 0 ∧ i = index ∧ index < blockCount ∧ block = blockBytes payload blockSize index := by
  cases l with
  | succ l =>
      exact absurd (hf _ hmem _ (nodeInput_mem hsub (by omega) hi) heq).symm
        (nodeInput_ne_leafInput _ _ _ _)
  | zero =>
      rw [Nat.sub_zero] at hi
      have hleaf : blake3 (leafInput index block)
          = blake3 (leafInputAt payload blockSize blockCount i) :=
        heq.trans (leafLabel_eq i)
      have hinput := hf _ hmem _ (leafInputAt_mem hsub hi) hleaf
      rw [leafInputAt] at hinput
      split at hinput
      · next hlt =>
          have hsmall : 2 ^ h ≤ 2 ^ 63 := Nat.pow_le_pow_right (by decide) hh
          obtain ⟨rfl, hblock⟩ := leafInput_inj hindex (by omega) hinput
          exact ⟨rfl, rfl, hlt, hblock⟩
      · exact absurd hinput (leafInput_ne_padInput _ _ _)

end Binding

/-! ## Accepted proofs -/

section Accepted

variable {blake3 : List UInt8 → Digest} {payload : List UInt8} {blockSize blockCount : ℕ}
  {levels : List (List Digest)} {proof : MerkleProof}

/-- The labels of the tree that a proof was replayed into. -/
lemma replayed_of_verify {h : ℕ} {inputs : List (List UInt8)} (hf : CollisionFree blake3 inputs)
    (htree : treeInputs blake3 payload blockSize blockCount h ⊆ inputs)
    (hproof : proof.hashInputs blake3 ⊆ inputs)
    (hroot : treeLabel blake3 payload blockSize blockCount h 0 = proof.root)
    {k : ℕ} (hk : treeHeight proof.blockCount.toNat = .ok k)
    (hcount : proof.last + 1 - proof.first = proof.blocks.length)
    (hreplay : replayLoop (nodeHash blake3) (computePlan proof.first proof.last k)
      (proof.leafHashes blake3 proof.first) proof.siblings = .ok ([proof.root], [])) :
    k ≤ h ∧ proof.leafHashes blake3 proof.first = (interval proof.first proof.last).map
        (replayed (treeLabel blake3 payload blockSize blockCount) h k 0) ∧
      proof.siblings = planHashes (replayed (treeLabel blake3 payload blockSize blockCount) h k)
        (computePlan proof.first proof.last k) := by
  have hpairs : ∀ p ∈ hashedPairs (nodeHash blake3) (computePlan proof.first proof.last k)
      (proof.leafHashes blake3 proof.first) proof.siblings, nodeInput p.1 p.2 ∈ inputs := by
    intro p hp
    refine hproof ?_
    rw [MerkleProof.hashInputs, hk]
    exact List.mem_append_right _ (List.mem_map.mpr ⟨p, hp, rfl⟩)
  have hb := bindsLevels_of_collisionFree hf htree hpairs
  rw [← hroot] at hreplay
  exact replayLoop_sound hb proof.first_le_last (by simpa [MerkleProof.leafHashes] using hcount.symm)
    (List.Subset.refl _) hreplay

/-- The root binds the covered blocks and their indices. -/
lemma blocks_of_verify (hlevels : merkleLevels blake3 payload blockSize = .ok (levels, blockCount))
    (hroot : topHash levels = .ok proof.root) (hverify : proof.verify blake3 = .ok ())
    (hf : CollisionFree blake3 (archiveInputs blake3 payload blockSize ++ proof.hashInputs blake3)) :
    proof.last < blockCount ∧
      proof.blocks = (interval proof.first proof.last).map (blockBytes payload blockSize) := by
  obtain ⟨hpos, rfl, h, hheight, rfl⟩ := merkleLevels_eq_ok.mp hlevels
  obtain ⟨k, hk, hrange, -, hcount, hreplay⟩ := MerkleProof.verify_eq_ok.mp hverify
  have htree : treeInputs blake3 payload blockSize (blockTotal payload.length blockSize) h
      ⊆ archiveInputs blake3 payload blockSize ++ proof.hashInputs blake3 := by
    rw [archiveInputs, hheight]
    exact List.subset_append_left _ _
  have htop : treeLabel blake3 payload blockSize (blockTotal payload.length blockSize) h 0
      = proof.root := by
    have := orPanic_eq_ok.mp hroot
    rw [levelsAbove_last (isLabelling_treeLabel _ _ _ _)] at this
    exact Option.some.inj this
  obtain ⟨hkh, hhashes, -⟩ := replayed_of_verify hf htree (List.subset_append_right _ _) htop hk
    hcount hreplay
  have hle := proof.first_le_last
  have hlast : proof.last < 2 ^ 64 := by
    obtain ⟨hsum, -, -⟩ := checkRange_eq_ok.mp hrange
    have hdiv : proof.last ≤ proof.offset.toNat + proof.len.toNat := by
      rw [MerkleProof.last, lastBlock]
      split
      · exact (Nat.div_le_self _ _).trans (by omega)
      · exact (Nat.div_le_self _ _).trans (by omega)
    simp only [u64Max] at hsum
    omega
  -- block by block
  have hblock : ∀ j (hj : j < proof.blocks.length),
      proof.first + j < blockTotal payload.length blockSize ∧
        proof.blocks[j] = blockBytes payload blockSize (proof.first + j) := by
    intro j hj
    have hj' : j < (proof.leafHashes blake3 proof.first).length := by
      simpa [MerkleProof.leafHashes] using hj
    have hlabel := List.getElem_of_eq hhashes hj'
    simp only [MerkleProof.leafHashes, List.getElem_map, List.getElem_zipIdx, Nat.zero_add,
      interval, List.getElem_range', Nat.one_mul] at hlabel
    obtain ⟨hzero, hindex, hlt, hbytes⟩ := block_of_leafHash hf htree
      (treeHeight_eq_ok.mp hheight).2.2 (by omega)
      (List.mem_append_right _ (List.mem_append_left _ (List.mem_map.mpr
        ⟨(proof.blocks[j], j), List.mem_zipIdx_iff_getElem?.mpr (by simp [hj]), rfl⟩)))
      (by omega) (by
        rw [show h - (h - k + 0) = k by omega]
        exact Nat.mod_lt _ (Nat.two_pow_pos k)) hlabel
    exact ⟨hlt, hbytes⟩
  constructor
  · have := (hblock (proof.blocks.length - 1) (by omega)).1
    omega
  · refine List.ext_getElem (by simpa using hcount.symm) fun j hj hj' => ?_
    rw [(hblock j hj).2]
    simp [interval]

/-! ## Extraction -/

/-- Where a proof, with its own block size, cuts the range out of the blocks, the payload has the
bytes of the range. -/
def MerkleProof.ReadsBack (proof : MerkleProof) (payload : List UInt8) (blockSize : ℕ) : Prop :=
  let within := proof.offset.toNat % proof.blockSize.toNat
  let start := proof.first * blockSize + within
  let stop := start + proof.len.toNat
  proof.len.toNat < 2 ^ 63 ∧
    within ≤ (blockBytes payload blockSize proof.first).length ∧
    (stop ≤ min ((proof.last + 1) * blockSize) payload.length →
      slice payload start stop
        = slice payload proof.offset.toNat (proof.offset.toNat + proof.len.toNat))

/-- **Soundness of range proofs, as far as it goes.** An accepted proof under the root of an
archive is extracted without a panic, and to the bytes of the archive in its range, exactly if its
own block size leads back to the range. -/
theorem extract_sound_iff
    (hlevels : merkleLevels blake3 payload blockSize = .ok (levels, blockCount))
    (hroot : topHash levels = .ok proof.root) (hverify : proof.verify blake3 = .ok ())
    (hf : CollisionFree blake3
      (archiveInputs blake3 payload blockSize ++ proof.hashInputs blake3)) :
    (proof.extract blake3 ≠ .panic ∧ ∀ out, proof.extract blake3 = .ok out →
        slice payload proof.offset.toNat (proof.offset.toNat + proof.len.toNat) = some out) ↔
      proof.ReadsBack payload blockSize := by
  obtain ⟨hlast, hblocks⟩ := blocks_of_verify hlevels hroot hverify hf
  obtain ⟨hpos, rfl, -⟩ := merkleLevels_eq_ok.mp hlevels
  have hle := proof.first_le_last
  have hfirst : proof.first * blockSize ≤ payload.length :=
    mul_le_of_lt_blockTotal hpos (hle.trans_lt hlast)
  have hwidth : (proof.last + 1 - proof.first) * blockSize
      = (proof.last + 1) * blockSize - proof.first * blockSize := Nat.sub_mul _ _ _
  have hnext : proof.first * blockSize + blockSize ≤ (proof.last + 1) * blockSize := by
    rw [← Nat.succ_mul]
    exact Nat.mul_le_mul_right _ (by omega)
  rw [MerkleProof.extract_of_verify hverify, hblocks, flatten_blocks payload _ (by omega),
    interval_cons hle, List.map_cons, List.headD_cons, MerkleProof.ReadsBack]
  generalize proof.offset.toNat % proof.blockSize.toNat = within
  have hhead := length_blockBytes payload blockSize proof.first
  by_cases hpanic : 2 ^ 63 ≤ proof.len.toNat ∨
      (blockBytes payload blockSize proof.first).length < within
  · -- the buffer cannot be reserved, or the start is behind the first block
    rw [if_pos hpanic]
    simp only [ne_eq, not_true_eq_false, false_and, false_iff]
    omega
  rw [if_neg hpanic]
  by_cases hcover : proof.len.toNat ≤ (List.take ((proof.last + 1 - proof.first) * blockSize)
      (List.drop (proof.first * blockSize) payload)).length - within
  · rw [if_pos hcover]
    have hcut : slice payload (proof.first * blockSize + within)
        (proof.first * blockSize + within + proof.len.toNat)
        = some (List.take proof.len.toNat (List.drop within
          (List.take ((proof.last + 1 - proof.first) * blockSize)
            (List.drop (proof.first * blockSize) payload)))) := by
      rw [List.length_take, List.length_drop] at hcover
      refine slice_eq_some.mpr ⟨by omega, by omega, ?_⟩
      rw [List.drop_take, List.drop_drop, List.take_take, Nat.min_eq_left (by omega)]
      congr 1
      omega
    rw [List.length_take, List.length_drop] at hcover
    constructor
    · rintro ⟨-, hread⟩
      exact ⟨by omega, by omega, fun _ => hcut.trans (hread _ rfl).symm⟩
    · rintro ⟨-, -, hsame⟩
      refine ⟨by simp, fun out hout => ?_⟩
      rw [← hsame (by omega), hcut, Outcome.ok.inj hout]
  · -- the blocks do not cover the range
    rw [if_neg hcover]
    rw [List.length_take, List.length_drop] at hcover
    constructor
    · exact fun _ => ⟨by omega, by omega, fun h => absurd h (by omega)⟩
    · exact fun _ => ⟨by simp, by simp⟩

end Accepted

/-! ## A file with another block size -/

/-- Blocks of zeros, of ones and a short block of twos. -/
def samplePayload : List UInt8 :=
  List.replicate 64 0 ++ List.replicate 64 1 ++ List.replicate 32 2

/-- The leaves, the last of which is padding, and the nodes above them. -/
def sampleLeaf₀ : Digest :=
  #v[177, 124, 31, 166, 255, 28, 160, 142, 177, 127, 5, 152, 66, 253, 135, 159, 104, 90, 109, 15,
    113, 192, 61, 216, 132, 75, 148, 115, 129, 165, 251, 75]

def sampleLeaf₁ : Digest :=
  #v[232, 0, 224, 176, 38, 205, 217, 121, 85, 33, 77, 210, 12, 117, 237, 9, 210, 214, 112, 130, 60,
    0, 63, 154, 181, 48, 221, 40, 114, 162, 122, 171]

def sampleLeaf₂ : Digest :=
  #v[123, 182, 239, 186, 73, 135, 184, 129, 71, 252, 193, 141, 9, 139, 44, 169, 215, 249, 60, 84,
    158, 207, 74, 164, 190, 105, 116, 158, 46, 82, 110, 74]

def samplePad₃ : Digest :=
  #v[81, 41, 108, 182, 243, 5, 60, 254, 201, 57, 217, 180, 219, 255, 115, 108, 191, 5, 23, 252, 253,
    96, 72, 211, 160, 122, 211, 132, 93, 60, 199, 96]

def sampleLeft : Digest :=
  #v[212, 135, 164, 124, 88, 42, 239, 143, 140, 89, 225, 216, 240, 78, 90, 153, 26, 235, 161, 77, 5,
    253, 209, 99, 189, 12, 64, 85, 105, 136, 254, 255]

def sampleRight : Digest :=
  #v[193, 177, 232, 80, 3, 184, 36, 91, 255, 184, 248, 235, 86, 36, 29, 32, 182, 117, 156, 159, 171,
    143, 153, 165, 192, 154, 25, 142, 22, 1, 218, 7]

def sampleRoot : Digest :=
  #v[3, 34, 228, 45, 44, 203, 182, 116, 61, 103, 41, 63, 40, 180, 120, 46, 12, 126, 136, 199, 253,
    254, 12, 200, 242, 140, 134, 77, 170, 87, 19, 89]

/-- What is hashed for the tree, and the digests. -/
def sampleTable : List (List UInt8 × Digest) :=
  [(leafInput 0 (List.replicate 64 0), sampleLeaf₀),
    (leafInput 1 (List.replicate 64 1), sampleLeaf₁),
    (leafInput 2 (List.replicate 32 2), sampleLeaf₂),
    (padInput 3, samplePad₃),
    (nodeInput sampleLeaf₀ sampleLeaf₁, sampleLeft),
    (nodeInput sampleLeaf₂ samplePad₃, sampleRight),
    (nodeInput sampleLeft sampleRight, sampleRoot)]

/-- The hash on the inputs of the tree. -/
def sampleHash (input : List UInt8) : Digest :=
  (sampleTable.lookup input).getD (Vector.replicate 32 0)

set_option maxRecDepth 100000 in
example : Hash.digest (padInput 3) = samplePad₃ ∧ sampleHash (padInput 3) = samplePad₃ := by
  decide +kernel

def sampleLevels : List (List Digest) :=
  [[sampleLeaf₀, sampleLeaf₁, sampleLeaf₂, samplePad₃], [sampleLeft, sampleRight], [sampleRoot]]

lemma sample_merkleLevels : merkleLevels sampleHash samplePayload 64 = .ok (sampleLevels, 3) := by
  decide +kernel

/-- A payload whose third block of 32 bytes is the third block of the sample. -/
def forgedPayload : List UInt8 := List.replicate 64 0 ++ List.replicate 32 2

def forgedSection : List UInt8 := sampleLeft.toList ++ sampleRight.toList ++ sampleRoot.toList

/-- A file with blocks of 32 bytes under the root of the sample. -/
def forgedFile : Input where
  bytes := magic ++ [4, 0, 1, 0] ++ leBytes 4 128 ++ leBytes 8 1 ++ leBytes 8 96 ++ leBytes 8 128 ++
    leBytes 8 320 ++ leBytes 4 32 ++ leBytes 8 3 ++ sampleRoot.toList ++ leBytes 8 224 ++
    leBytes 8 96 ++ List.replicate 20 0 ++ forgedPayload ++ forgedSection
  length_le := by decide +kernel

def forgedHeader : ArchiveHeader where
  schemaId := 1
  payloadLen := 96
  fileLen := 320
  blockSize := 32
  blockCount := 3
  root := sampleRoot
  hashOffset := 224
  hashLen := 96

/-- The proof of the bytes 64 to 96 that is built from the forged file. -/
def forgedProof : MerkleProof where
  offset := 64
  len := 32
  blockSize := 32
  blockCount := 3
  payloadLen := 96
  blocks := [List.replicate 32 2]
  siblings := [samplePad₃, sampleLeft]
  root := sampleRoot

lemma forged_verify : forgedProof.verify sampleHash = .ok () := by decide +kernel

lemma forged_collisionFree : CollisionFree sampleHash
    (archiveInputs sampleHash samplePayload 64 ++ forgedProof.hashInputs sampleHash) := by
  decide +kernel

theorem extract_sound_iff_forged :
    (forgedProof.extract sampleHash ≠ .panic ∧ ∀ out, forgedProof.extract sampleHash = .ok out →
        slice samplePayload 64 (64 + 32) = some out) ↔
      forgedProof.ReadsBack samplePayload 64 :=
  extract_sound_iff sample_merkleLevels rfl forged_verify forged_collisionFree

/-- The forged file is accepted, its proof is built and accepted under the root of the sample,
and gives bytes of another range. -/
theorem forged_extract :
    parseHeader forgedFile ArchiveLimits.new = .ok forgedHeader ∧
      buildProof sampleHash forgedPayload forgedSection 64 32 forgedHeader = .ok forgedProof ∧
      merkleLevels sampleHash samplePayload 64 = .ok (sampleLevels, 3) ∧
      topHash sampleLevels = .ok forgedProof.root ∧
      CollisionFree sampleHash
        (archiveInputs sampleHash samplePayload 64 ++ forgedProof.hashInputs sampleHash) ∧
      forgedProof.verify sampleHash = .ok () ∧
      forgedProof.extract sampleHash = .ok (List.replicate 32 2) ∧
      slice samplePayload 64 (64 + 32) = some (List.replicate 32 1) :=
  ⟨by decide +kernel, by decide +kernel, sample_merkleLevels, rfl, forged_collisionFree,
    forged_verify, by decide +kernel, by decide +kernel⟩

end RustBinary.Archive
