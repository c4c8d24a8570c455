import RustBinary.Archive.Tree

/-!
# Building, verifying and extracting

What `build_proof`, `verify` and `extract` compute, for the blocks of a payload and for any
siblings: a proof carries the covered blocks and what its plan reads, it is accepted when its
replay gives the root, and extraction cuts the range out of the blocks laid end to end.
-/

namespace RustBinary.Archive

open Lib Lib.Outcome

/-! ## Ranges -/

/-- The last block of a byte range. -/
def lastBlock (offset len blockSize : ℕ) : ℕ :=
  if len = 0 then offset / blockSize else (offset + len - 1) / blockSize

lemma blockRange_eq_ok {offset len blockSize first last : ℕ} :
    blockRange offset len blockSize = .ok (first, last) ↔
      0 < blockSize ∧ first = offset / blockSize ∧ last = lastBlock offset len blockSize := by
  rw [blockRange, blockOf, blockOf, lastBlock]
  by_cases hzero : blockSize = 0
  · rw [if_pos hzero, panic_bind]
    simp only [reduceCtorEq, false_iff]
    omega
  · rw [if_neg hzero, ok_bind, if_neg hzero]
    have hpos : 0 < blockSize := Nat.pos_of_ne_zero hzero
    split <;> simp [hpos, eq_comm]

lemma first_le_lastBlock (offset len blockSize : ℕ) :
    offset / blockSize ≤ lastBlock offset len blockSize := by
  rw [lastBlock]
  split
  · exact Nat.le_refl _
  · exact Nat.div_le_div_right (by omega)

/-- The covered blocks end behind the range. -/
lemma range_le_lastBlock {offset len blockSize : ℕ} (hpos : 0 < blockSize) :
    offset + len ≤ (lastBlock offset len blockSize + 1) * blockSize := by
  rw [lastBlock, Nat.succ_mul]
  split
  · next h =>
      have := Nat.lt_div_mul_add (a := offset) hpos
      omega
  · next h =>
      have := Nat.lt_div_mul_add (a := offset + len - 1) hpos
      omega

/-- The last covered block starts in the payload. -/
lemma lastBlock_mul_lt {offset len blockSize payloadLen : ℕ} (hoffset : offset < payloadLen)
    (hstop : offset + len ≤ payloadLen) : lastBlock offset len blockSize * blockSize < payloadLen := by
  rw [lastBlock]
  split
  · have := Nat.div_mul_le_self offset blockSize
    omega
  · have := Nat.div_mul_le_self (offset + len - 1) blockSize
    omega

lemma checkRange_eq_ok {offset len payloadLen : ℕ} :
    checkRange offset len payloadLen = .ok () ↔
      offset + len ≤ u64Max ∧ offset < payloadLen ∧ offset + len ≤ payloadLen := by
  rw [checkRange, checkedAdd]
  split
  · next h =>
      rw [okOr_some, ok_bind, require_eq_ok]
      simp [h]
  · next h =>
      rw [okOr_none, err_bind]
      simp only [reduceCtorEq, false_iff]
      exact fun h' => h h'.1

/-! ## Siblings of a range of leaves -/

/-- The siblings of leaves of a tree are nodes of it. -/
lemma isSibling_lt {a b h l i : ℕ} (hab : a ≤ b) (hb : b < 2 ^ h) (hi : IsSibling a b h l i) :
    i < 2 ^ (h - l) := by
  obtain ⟨hl, hmem⟩ := hi
  obtain ⟨k, hk⟩ : ∃ k, h - l = k + 1 := ⟨h - l - 1, by omega⟩
  have hwidth : 2 ^ h = 2 ^ (k + 1) * 2 ^ l := by
    rw [← pow_add]
    congr 1
    omega
  have hlast : b / 2 ^ l < 2 ^ (k + 1) := Nat.div_lt_of_lt_mul (by rwa [Nat.mul_comm, ← hwidth])
  have hfirst : a / 2 ^ l ≤ b / 2 ^ l := Nat.div_le_div_right hab
  rw [pow_succ] at hlast
  rw [hk, pow_succ]
  generalize a / 2 ^ l = start at hfirst hmem
  generalize b / 2 ^ l = stop at hfirst hmem hlast
  rcases List.mem_append.mp hmem with hleft | hright
  · rw [leftEdge] at hleft
    split at hleft
    · rw [List.mem_singleton.mp hleft]
      omega
    · simp at hleft
  · rw [rightEdge] at hright
    split at hright
    · rw [List.mem_singleton.mp hright]
      omega
    · simp at hright

/-! ## Verification -/

variable {blake3 : List UInt8 → Digest}

lemma replayRoot_eq_ok {node : Digest → Digest → Digest} {hashes siblings : List Digest}
    {first last height : ℕ} {root : Digest} :
    replayRoot node hashes first last height siblings = .ok root ↔
      replayLoop node (computePlan first last height) hashes siblings = .ok ([root], []) := by
  rw [replayRoot, bind_eq_ok]
  constructor
  · rintro ⟨⟨hashes', siblings'⟩, hloop, hrest⟩
    obtain ⟨_, hempty, hroot⟩ := bind_eq_ok.mp hrest
    rw [require_eq_ok] at hempty
    obtain rfl := hempty
    split at hroot
    · cases hroot
      exact hloop
    · cases hroot
  · intro hloop
    exact ⟨_, hloop, rfl⟩

namespace MerkleProof

variable (blake3) in
/-- The hashes of the carried blocks. -/
def leafHashes (proof : MerkleProof) (first : ℕ) : List Digest :=
  proof.blocks.zipIdx.map fun p => leafHash blake3 (first + p.2) p.1

/-- The first block of the range, as the proof divides it. -/
def first (proof : MerkleProof) : ℕ := proof.offset.toNat / proof.blockSize.toNat

/-- The last block of the range, as the proof divides it. -/
def last (proof : MerkleProof) : ℕ :=
  lastBlock proof.offset.toNat proof.len.toNat proof.blockSize.toNat

lemma first_le_last (proof : MerkleProof) : proof.first ≤ proof.last := first_le_lastBlock _ _ _

/-- When a proof is accepted. -/
lemma verify_eq_ok {proof : MerkleProof} :
    proof.verify blake3 = .ok () ↔
      ∃ height, treeHeight proof.blockCount.toNat = .ok height ∧
        checkRange proof.offset.toNat proof.len.toNat proof.payloadLen.toNat = .ok () ∧
        0 < proof.blockSize.toNat ∧ proof.last + 1 - proof.first = proof.blocks.length ∧
        replayLoop (nodeHash blake3) (computePlan proof.first proof.last height)
          (proof.leafHashes blake3 proof.first) proof.siblings = .ok ([proof.root], []) := by
  have hle := proof.first_le_last
  rw [verify, bind_eq_ok]
  refine exists_congr fun height => and_congr_right fun _ => ?_
  rw [bind_eq_ok]
  constructor
  · rintro ⟨_, hrange, hrest⟩
    obtain ⟨⟨f, l⟩, hblocks, hrest⟩ := bind_eq_ok.mp hrest
    obtain ⟨hpos, rfl, rfl⟩ := blockRange_eq_ok.mp hblocks
    obtain ⟨_, hcount, hrest⟩ := bind_eq_ok.mp hrest
    obtain ⟨root, hroot, hmatch⟩ := bind_eq_ok.mp hrest
    obtain rfl := require_eq_ok.mp hmatch
    have hcount : proof.last - proof.first + 1 = proof.blocks.length := require_eq_ok.mp hcount
    exact ⟨hrange, hpos, by omega, replayRoot_eq_ok.mp hroot⟩
  · rintro ⟨hrange, hpos, hcount, hreplay⟩
    refine ⟨(), hrange, bind_eq_ok.mpr ⟨_, blockRange_eq_ok.mpr ⟨hpos, rfl, rfl⟩, ?_⟩⟩
    refine bind_eq_ok.mpr ⟨(), require_of ?_, ?_⟩
    · show proof.last - proof.first + 1 = proof.blocks.length
      omega
    · exact bind_eq_ok.mpr ⟨_, replayRoot_eq_ok.mpr hreplay, require_of rfl⟩

/-! ## Extraction -/

lemma takeLoop_cons {start : ℕ} {block : List UInt8} (h : start ≤ block.length)
    (blocks : List (List UInt8)) (remaining : ℕ) :
    takeLoop start (block :: blocks) remaining =
      takeLoop 0 blocks (remaining - min (block.length - start) remaining) >>= fun out =>
        pure ((block.drop start).take (min (block.length - start) remaining) ++ out.1, out.2) := by
  rw [takeLoop, if_neg (Nat.not_lt.mpr h)]

lemma takeLoop_zero (blocks : List (List UInt8)) (remaining : ℕ) :
    takeLoop 0 blocks remaining
      = .ok (blocks.flatten.take remaining, remaining - blocks.flatten.length) := by
  induction blocks generalizing remaining with
  | nil => simp [takeLoop]
  | cons block blocks ih =>
      rw [takeLoop_cons (Nat.zero_le _), ih, ok_bind, Nat.sub_zero, List.drop_zero,
        List.flatten_cons, List.take_append, List.length_append, pure_eq_ok, Outcome.ok.injEq,
        Prod.mk.injEq]
      constructor
      · rcases Nat.le_total block.length remaining with h | h
        · rw [Nat.min_eq_left h, List.take_of_length_le (Nat.le_refl _), List.take_of_length_le h]
        · rw [Nat.min_eq_right h, Nat.sub_self, Nat.sub_eq_zero_of_le h]
      · omega

/-- Extraction drops what is in front of the range and takes what is wanted. -/
lemma takeLoop_eq (start : ℕ) (block : List UInt8) (blocks : List (List UInt8)) (remaining : ℕ) :
    takeLoop start (block :: blocks) remaining =
      if block.length < start then .panic
      else .ok (((block :: blocks).flatten.drop start).take remaining,
        remaining - ((block :: blocks).flatten.length - start)) := by
  split
  · next h => rw [takeLoop, if_pos h]
  · next h =>
      have hdrop : (block.drop start).length = block.length - start := List.length_drop
      rw [takeLoop_cons (Nat.not_lt.mp h), takeLoop_zero, ok_bind, List.flatten_cons,
        List.drop_append_of_le_length (by omega),
        List.take_append, List.length_append, hdrop, pure_eq_ok, Outcome.ok.injEq, Prod.mk.injEq]
      constructor
      · rcases Nat.le_total (block.length - start) remaining with h' | h'
        · rw [Nat.min_eq_left h', List.take_of_length_le hdrop.le,
            List.take_of_length_le (hdrop.le.trans h')]
        · rw [Nat.min_eq_right h', Nat.sub_self, Nat.sub_eq_zero_of_le h']
      · omega

/-- What extraction does with an accepted proof. -/
lemma extract_of_verify {proof : MerkleProof} (hverify : proof.verify blake3 = .ok ()) :
    proof.extract blake3 =
      if 2 ^ 63 ≤ proof.len.toNat ∨
          (proof.blocks.headD []).length < proof.offset.toNat % proof.blockSize.toNat then .panic
      else if proof.len.toNat
          ≤ proof.blocks.flatten.length - proof.offset.toNat % proof.blockSize.toNat then
        .ok ((proof.blocks.flatten.drop (proof.offset.toNat % proof.blockSize.toNat)).take
          proof.len.toNat)
      else .err (.merkle "proof bytes do not cover the range") := by
  obtain ⟨block, blocks, hblocks⟩ : ∃ block blocks, proof.blocks = block :: blocks := by
    obtain ⟨-, -, -, -, hcount, -⟩ := verify_eq_ok.mp hverify
    have hle := proof.first_le_last
    refine List.exists_cons_of_length_pos ?_
    omega
  rw [extract, hverify, ok_bind, hblocks, List.headD_cons]
  dsimp only
  rw [takeLoop_eq]
  by_cases hlen : 2 ^ 63 ≤ proof.len.toNat
  · rw [if_pos hlen, if_pos (.inl hlen)]
  · rw [if_neg hlen]
    split
    · next hstart => rw [if_pos (.inr hstart), panic_bind]
    · next hstart =>
        rw [if_neg (by tauto), ok_bind, require]
        by_cases hcover : proof.len.toNat ≤ (block :: blocks).flatten.length
            - proof.offset.toNat % proof.blockSize.toNat
        · rw [if_pos hcover, if_pos (Nat.sub_eq_zero_of_le hcover)]
          rfl
        · rw [if_neg hcover, if_neg (by omega)]
          rfl

end MerkleProof

end RustBinary.Archive
