import RustBinary.Archive.Proofs
import RustBinary.Hash.Blake3

/-!
# Completeness of range proofs

A header that describes its payload and a hash section that stores the labels of the tree: then
the proof of every range is built, is accepted and gives the range back (`buildProof_complete`).
The labels `S` that the section stores are kept apart from those of the tree, since nothing but
the comparison with the root tells them apart.
-/

namespace RustBinary.Archive

open Lib Lib.Outcome

/-! ## Blocks laid end to end -/

lemma blockBytes_append (payload : List UInt8) (blockSize a n : ℕ) :
    blockBytes payload blockSize a ++ (payload.drop ((a + 1) * blockSize)).take (n * blockSize)
      = (payload.drop (a * blockSize)).take ((n + 1) * blockSize) := by
  rw [blockBytes, show (a + 1) * blockSize = a * blockSize + blockSize by ring, ← List.drop_drop,
    show (n + 1) * blockSize = blockSize + n * blockSize by ring, List.take_add]

/-- The covered blocks are one piece of the payload. -/
lemma flatten_blocks (payload : List UInt8) (blockSize : ℕ) {a b : ℕ} (h : a ≤ b + 1) :
    ((interval a b).map (blockBytes payload blockSize)).flatten
      = (payload.drop (a * blockSize)).take ((b + 1 - a) * blockSize) := by
  obtain ⟨n, hn⟩ : ∃ n, b + 1 = a + n := ⟨b + 1 - a, by omega⟩
  induction n generalizing a with
  | zero =>
      rw [interval_of_lt (by omega), show b + 1 - a = 0 by omega]
      simp
  | succ n ih =>
      rw [interval_cons (by omega), List.map_cons, List.flatten_cons,
        ih (a := a + 1) (by omega) (by omega),
        show b + 1 - a = b + 1 - (a + 1) + 1 by omega]
      exact blockBytes_append payload blockSize a _

lemma length_blockBytes (payload : List UInt8) (blockSize index : ℕ) :
    (blockBytes payload blockSize index).length
      = min blockSize (payload.length - index * blockSize) := by
  rw [blockBytes, List.length_take, List.length_drop]

/-! ## The proof of a range -/

variable {blake3 : List UInt8 → Digest} {payload hashSection : List UInt8}
  {header : ArchiveHeader} {S : ℕ → ℕ → Digest} {h : ℕ} {offset len : UInt64}

variable (blake3) in
/-- The labels of the tree of a payload with the geometry of a header. -/
abbrev ArchiveHeader.tree (header : ArchiveHeader) (payload : List UInt8) : ℕ → ℕ → Digest :=
  treeLabel blake3 payload header.blockSize.toNat header.blockCount.toNat

variable (blake3) in
/-- The header describes the tree of the payload, which has height `h`. -/
structure Describes (header : ArchiveHeader) (payload : List UInt8) (h : ℕ) : Prop where
  blockSize_pos : 0 < header.blockSize.toNat
  payloadLen_eq : header.payloadLen.toNat = payload.length
  blockCount_eq : header.blockCount.toNat = blockTotal payload.length header.blockSize.toNat
  height_eq : treeHeight header.blockCount.toNat = .ok h
  root_eq : header.tree blake3 payload h 0 = header.root

/-- The hash section stores the labels `S` of the inner nodes. -/
def Stores (hashSection : List UInt8) (h : ℕ) (S : ℕ → ℕ → Digest) : Prop :=
  ∀ l i, 0 < l → l ≤ h → i < 2 ^ (h - l) → readSectionHash hashSection (2 ^ h) h l i = .ok (S l i)

/-- The byte range lies in the payload. -/
def InPayload (payload : List UInt8) (offset len : UInt64) : Prop :=
  offset.toNat < payload.length ∧ offset.toNat + len.toNat ≤ payload.length

lemma checkRange_of_inPayload (hlen : payload.length = header.payloadLen.toNat)
    (hin : InPayload payload offset len) :
    checkRange offset.toNat len.toNat header.payloadLen.toNat = .ok () := by
  have h₁ := hin.2
  have h₂ := header.payloadLen.toNat_lt
  rw [← hlen] at h₂ ⊢
  refine checkRange_eq_ok.mpr ⟨?_, hin⟩
  simp only [u64Max]
  omega

/-- The proof of a range, with the labels `S` as siblings. -/
def rangeProof (header : ArchiveHeader) (payload : List UInt8) (S : ℕ → ℕ → Digest) (h : ℕ)
    (offset len : UInt64) : MerkleProof :=
  let first := offset.toNat / header.blockSize.toNat
  let last := lastBlock offset.toNat len.toNat header.blockSize.toNat
  { offset := offset
    len := len
    blockSize := header.blockSize
    blockCount := header.blockCount
    payloadLen := header.payloadLen
    blocks := (interval first last).map (blockBytes payload header.blockSize.toNat)
    siblings := planHashes S (computePlan first last h)
    root := header.root }

namespace Describes

/-- The blocks of a range are blocks of the tree. -/
lemma last_lt (hd : Describes blake3 header payload h) (hin : InPayload payload offset len) :
    lastBlock offset.toNat len.toNat header.blockSize.toNat < header.blockCount.toNat := by
  have hlt : lastBlock _ _ header.blockSize.toNat * header.blockSize.toNat < payload.length :=
    lastBlock_mul_lt hin.1 hin.2
  rw [hd.blockCount_eq, blockTotal]
  exact lt_max_of_lt_left ((lt_ceil_iff hd.blockSize_pos).mpr hlt)

lemma blockCount_le (hd : Describes blake3 header payload h) : header.blockCount.toNat ≤ 2 ^ h :=
  (treeHeight_eq_ok.mp hd.height_eq).1

lemma checkRange_eq (hd : Describes blake3 header payload h)
    (hin : InPayload payload offset len) :
    checkRange offset.toNat len.toNat header.payloadLen.toNat = .ok () :=
  checkRange_of_inPayload hd.payloadLen_eq.symm hin

/-- The proof of a range is built. -/
lemma buildProof_eq (hd : Describes blake3 header payload h) (hs : Stores hashSection h S)
    (hleaf : S 0 = header.tree blake3 payload 0) (hin : InPayload payload offset len) :
    buildProof blake3 payload hashSection offset len header
      = .ok (rangeProof header payload S h offset len) := by
  have hfirst := first_le_lastBlock offset.toNat len.toNat header.blockSize.toNat
  have hlast := hd.last_lt hin
  have hcount := hd.blockCount_le
  have hinside : ∀ i, i < header.blockCount.toNat → i * header.blockSize.toNat ≤ payload.length := by
    intro i hi
    exact mul_le_of_lt_blockTotal hd.blockSize_pos (hd.blockCount_eq ▸ hi)
  have hblocks : mapAll (blockAt payload header.blockSize.toNat)
      (interval (offset.toNat / header.blockSize.toNat)
        (lastBlock offset.toNat len.toNat header.blockSize.toNat))
      = .ok (rangeProof header payload S h offset len).blocks := by
    refine mapAll_of fun i hi => ?_
    rw [blockAt_eq, if_pos (hinside i ((mem_interval.mp hi).2.trans_lt hlast))]
  have hsiblings : collectSiblings blake3 payload hashSection header.blockSize.toNat
      header.blockCount.toNat h (offset.toNat / header.blockSize.toNat)
      (lastBlock offset.toNat len.toNat header.blockSize.toNat)
      = .ok (rangeProof header payload S h offset len).siblings := by
    refine collectLoop_of hfirst fun l i hi => ?_
    have hwidth := isSibling_lt hfirst (hlast.trans_le hcount) hi
    rw [Nat.zero_add]
    split
    · next hzero =>
        rw [hzero, leafHashFor_of (hinside i), hleaf]
        rfl
    · next hne => exact hs l i (Nat.pos_of_ne_zero hne) hi.1.le hwidth
  rw [buildProof, hd.checkRange_eq hin, ok_bind, blockRange_eq_ok.mpr ⟨hd.blockSize_pos, rfl, rfl⟩,
    ok_bind]
  dsimp only
  rw [hblocks, ok_bind, hd.height_eq, ok_bind, hsiblings]
  rfl

/-- The carried blocks hash to leaves of the tree. -/
lemma leafHashes_rangeProof (hd : Describes blake3 header payload h)
    (hin : InPayload payload offset len) :
    (rangeProof header payload S h offset len).leafHashes blake3
        (rangeProof header payload S h offset len).first
      = (interval (rangeProof header payload S h offset len).first
          (rangeProof header payload S h offset len).last).map (header.tree blake3 payload 0) := by
  refine List.ext_getElem (by simp [MerkleProof.leafHashes, rangeProof, MerkleProof.first,
    MerkleProof.last]) fun k hk hk' => ?_
  have hlast := hd.last_lt hin
  rw [List.length_map, length_interval] at hk'
  have hindex : (rangeProof header payload S h offset len).first + k
      < header.blockCount.toNat := by
    have : (rangeProof header payload S h offset len).last < header.blockCount.toNat := hlast
    omega
  simp only [MerkleProof.leafHashes, List.getElem_map, List.getElem_zipIdx, Nat.zero_add]
  simp only [rangeProof, MerkleProof.first, MerkleProof.last, interval, List.getElem_map,
    List.getElem_range', Nat.one_mul] at hindex ⊢
  show _ = leafLabel blake3 payload _ _ _
  rw [leafLabel, if_pos hindex]

/-- A proof that carries the siblings of the tree is accepted. -/
lemma verify_rangeProof (hd : Describes blake3 header payload h)
    (hin : InPayload payload offset len)
    (hsiblings : (rangeProof header payload S h offset len).siblings
      = planHashes (header.tree blake3 payload) (computePlan
          (rangeProof header payload S h offset len).first
          (rangeProof header payload S h offset len).last h)) :
    (rangeProof header payload S h offset len).verify blake3 = .ok () := by
  have hlast : (rangeProof header payload S h offset len).last < 2 ^ h :=
    (hd.last_lt hin).trans_le hd.blockCount_le
  have hfirst := (rangeProof header payload S h offset len).first_le_last
  refine MerkleProof.verify_eq_ok.mpr ⟨h, hd.height_eq, ?_, hd.blockSize_pos, ?_, ?_⟩
  · exact hd.checkRange_eq hin
  · show _ = (List.map _ (interval _ _)).length
    rw [List.length_map, length_interval]
    rfl
  · have hreplay := replayLoop_labels (k := h) (isLabelling_treeLabel blake3 payload
      header.blockSize.toNat header.blockCount.toNat) hfirst []
    rw [List.append_nil] at hreplay
    rw [hd.leafHashes_rangeProof hin, hsiblings, computePlan, hreplay,
      Nat.div_eq_of_lt (hfirst.trans_lt hlast), Nat.div_eq_of_lt hlast, interval_self,
      List.map_singleton]
    show Outcome.ok ([header.tree blake3 payload h 0], []) = _
    rw [hd.root_eq]
    rfl

/-- An accepted proof of a range gives the range. -/
lemma extract_rangeProof (hd : Describes blake3 header payload h)
    (hin : InPayload payload offset len) (hlen : len.toNat < 2 ^ 63)
    (hverify : (rangeProof header payload S h offset len).verify blake3 = .ok ()) :
    (rangeProof header payload S h offset len).extract blake3
      = .ok ((payload.drop offset.toNat).take len.toNat) := by
  obtain ⟨first, hfirst⟩ : ∃ first, first = offset.toNat / header.blockSize.toNat := ⟨_, rfl⟩
  obtain ⟨last, hlast⟩ : ∃ last,
      last = lastBlock offset.toNat len.toNat header.blockSize.toNat := ⟨_, rfl⟩
  have hle : first ≤ last := by
    rw [hfirst, hlast]
    exact first_le_lastBlock _ _ _
  have hblocks : (rangeProof header payload S h offset len).blocks
      = (interval first last).map (blockBytes payload header.blockSize.toNat) := by
    rw [hfirst, hlast]
    rfl
  have hsplit : first * header.blockSize.toNat + offset.toNat % header.blockSize.toNat
      = offset.toNat := by
    rw [hfirst, Nat.mul_comm]
    exact Nat.div_add_mod _ _
  have hstop : offset.toNat + len.toNat ≤ (last + 1) * header.blockSize.toNat := by
    rw [hlast]
    exact range_le_lastBlock hd.blockSize_pos
  have hmod := Nat.mod_lt offset.toNat hd.blockSize_pos
  have hwidth : (last + 1 - first) * header.blockSize.toNat
      = (last + 1) * header.blockSize.toNat - first * header.blockSize.toNat := Nat.sub_mul _ _ _
  have h₁ := hin.1
  have h₂ := hin.2
  rw [MerkleProof.extract_of_verify hverify, hblocks, flatten_blocks payload _ (by omega),
    interval_cons hle, List.map_cons, List.headD_cons, length_blockBytes]
  show (if 2 ^ 63 ≤ len.toNat ∨ _ < offset.toNat % header.blockSize.toNat then _ else _) = _
  rw [if_neg (by omega)]
  show (if len.toNat ≤ _ then _ else _) = _
  rw [if_pos (by
    rw [List.length_take, List.length_drop]
    show len.toNat ≤ _ - offset.toNat % header.blockSize.toNat
    omega)]
  show Outcome.ok ((List.drop (offset.toNat % header.blockSize.toNat) _).take len.toNat) = _
  rw [List.drop_take, List.drop_drop, hsplit, List.take_take, Nat.min_eq_left (by omega)]

end Describes

/-! ## The section of the tree -/

lemma stores_serialize {node : Digest → Digest → Digest} {T : ℕ → ℕ → Digest}
    (hT : IsLabelling node T) (h : ℕ) :
    Stores (serializeHashSection (levelsAbove node h (row (T 0) h))) h T :=
  fun _ _ hpos hl hi => readSectionHash_serialize hT hpos hl hi

/-- A payload has a tree; a slice never has more than `isize::MAX` bytes. -/
lemma exists_merkleLevels (blake3 : List UInt8 → Digest) {payload : List UInt8} {blockSize : ℕ}
    (hlen : payload.length < 2 ^ 63) (hpos : 0 < blockSize) :
    ∃ height, treeHeight (blockTotal payload.length blockSize) = .ok height ∧
      merkleLevels blake3 payload blockSize = .ok (levelsAbove (nodeHash blake3) height
        (row (treeLabel blake3 payload blockSize (blockTotal payload.length blockSize) 0) height),
        blockTotal payload.length blockSize) := by
  have hcount : blockTotal payload.length blockSize ≤ 2 ^ 63 := by
    have hceil : (payload.length + (blockSize - 1)) / blockSize ≤ payload.length := by
      by_contra hgt
      have hlt := (lt_ceil_iff hpos).mp (Nat.lt_of_not_le hgt)
      have := Nat.le_mul_of_pos_right payload.length hpos
      omega
    rw [blockTotal]
    exact max_le (by omega) (by decide)
  obtain ⟨height, hheight⟩ := exists_treeHeight hcount
  exact ⟨height, hheight, merkleLevels_eq_ok.mpr ⟨hpos, rfl, height, hheight, rfl⟩⟩

/-- **Completeness of range proofs.** Over the section of the tree of a payload the proof of every
range is built with the root of the tree, is accepted, and gives the bytes of the range. -/
theorem buildProof_complete (blake3 : List UInt8 → Digest) (payload : List UInt8)
    (blockSize : UInt32) (hlen : payload.length < 2 ^ 63) (hpos : 0 < blockSize.toNat) :
    ∃ levels blockCount root,
      merkleLevels blake3 payload blockSize.toNat = .ok (levels, blockCount) ∧
      topHash levels = .ok root ∧
      ∀ header : ArchiveHeader, header.payloadLen.toNat = payload.length →
        header.blockSize = blockSize → header.blockCount.toNat = blockCount →
        header.root = root → ∀ offset len : UInt64, InPayload payload offset len →
          ∃ proof, buildProof blake3 payload (serializeHashSection levels) offset len header
              = .ok proof ∧
            proof.root = root ∧ proof.verify blake3 = .ok () ∧
            proof.extract blake3 = .ok ((payload.drop offset.toNat).take len.toNat) := by
  obtain ⟨height, hheight, hlevels⟩ := exists_merkleLevels blake3 hlen hpos
  have hT := isLabelling_treeLabel blake3 payload blockSize.toNat
    (blockTotal payload.length blockSize.toNat)
  refine ⟨_, _, _, hlevels, orPanic_eq_ok.mpr (levelsAbove_last hT height), ?_⟩
  intro header hpayload hblock hcount hroot offset len hin
  subst hblock
  have hd : Describes blake3 header payload height := {
    blockSize_pos := hpos
    payloadLen_eq := hpayload
    blockCount_eq := hcount
    height_eq := hcount ▸ hheight
    root_eq := by
      rw [ArchiveHeader.tree, hcount, hroot] }
  have hs : Stores (serializeHashSection (levelsAbove (nodeHash blake3) height
      (row (treeLabel blake3 payload header.blockSize.toNat
        (blockTotal payload.length header.blockSize.toNat) 0) height))) height
      (header.tree blake3 payload) := by
    rw [ArchiveHeader.tree, hcount]
    exact stores_serialize hT height
  have hverify := hd.verify_rangeProof (S := header.tree blake3 payload) hin rfl
  have hsmall : len.toNat < 2 ^ 63 := by
    have := hin.2
    omega
  exact ⟨_, hd.buildProof_eq hs rfl hin, hroot, hverify, hd.extract_rangeProof hin hsmall hverify⟩

/-- Forty bytes in blocks of 32 bytes. -/
theorem buildProof_complete_forty :
    ∃ levels blockCount root,
      merkleLevels Hash.digest (List.replicate 40 7) (32 : UInt32).toNat
        = .ok (levels, blockCount) ∧
      topHash levels = .ok root ∧
      ∀ header : ArchiveHeader, header.payloadLen.toNat = (List.replicate 40 (7 : UInt8)).length →
        header.blockSize = 32 → header.blockCount.toNat = blockCount →
        header.root = root → ∀ offset len : UInt64,
          InPayload (List.replicate 40 7) offset len →
          ∃ proof, buildProof Hash.digest (List.replicate 40 7) (serializeHashSection levels)
              offset len header = .ok proof ∧
            proof.root = root ∧ proof.verify Hash.digest = .ok () ∧
            proof.extract Hash.digest
              = .ok (((List.replicate 40 (7 : UInt8)).drop offset.toNat).take len.toNat) :=
  buildProof_complete Hash.digest (List.replicate 40 7) 32 (by decide) (by decide)

end RustBinary.Archive
