import Mathlib.Data.Nat.Bits
import RustBinary.Hash.Blake3

/-!
# The tree that BLAKE3 hashes

The recursive definition of the digest: a chunk is a chain of blocks, and the tree over more
than one chunk has on its left the largest power of two of chunks that leaves something to its
right.

The streaming hasher is compared with it along one input `data` that it has absorbed a prefix
of.  Two invariants carry the proof: the chunk state stands for the output of its chunk,
whatever is absorbed next (`ChunkState.rest`), and the stack has the chaining value of one
perfect subtree for each binary one of the number of finished chunks (`Spine`).
-/

namespace RustBinary.Hash

open Lib Lib.Outcome

/-! ## The recursive definition -/

/-- The output of a chunk with `bytes` to go, after blocks that have given `cv`. -/
def chunkOutput (cv : Cv) (counter : ℕ) (startFlag : UInt32) (bytes : List UInt8) : Output :=
  if bytes.length ≤ blockLen then
    ⟨cv, wordsFromBytes bytes, counter, bytes.length, startFlag ||| chunkEnd⟩
  else
    chunkOutput ((compress cv (wordsFromBytes (bytes.take blockLen)) counter blockLen
      startFlag).extract 0 8) counter 0 (bytes.drop blockLen)
termination_by bytes.length
decreasing_by
  rw [List.length_drop, blockLen]
  simp only [blockLen] at *
  omega

/-- The number of chunks of a byte string. -/
def chunkCount (bytes : List UInt8) : ℕ := (bytes.length + (chunkLen - 1)) / chunkLen

/-- The chunks of the left subtree of a node over `n` chunks: the largest power of two below
`n`. -/
def leftChunks (n : ℕ) : ℕ := 2 ^ (n - 1).log2

lemma leftChunks_pos (n : ℕ) : 0 < leftChunks n := Nat.two_pow_pos _

lemma leftChunks_lt (bytes : List UInt8) (h : chunkLen < bytes.length) :
    chunkLen * leftChunks (chunkCount bytes) < bytes.length := by
  have hlog : leftChunks (chunkCount bytes) ≤ chunkCount bytes - 1 := by
    refine Nat.log2_self_le ?_
    simp only [chunkCount, chunkLen] at *
    omega
  simp only [chunkCount, chunkLen] at *
  omega

/-- The output of the tree over `bytes`, whose first chunk is the chunk `start` of the input. -/
def treeOutput (start : ℕ) (bytes : List UInt8) : Output :=
  if bytes.length ≤ chunkLen then chunkOutput iv start chunkStart bytes
  else
    let left := leftChunks (chunkCount bytes)
    parentOutput (treeOutput start (bytes.take (chunkLen * left))).chainingValue
      (treeOutput (start + left) (bytes.drop (chunkLen * left))).chainingValue
termination_by bytes.length
decreasing_by
  · rw [List.length_take]
    have := leftChunks_lt bytes (by omega)
    omega
  · rw [List.length_drop]
    have := leftChunks_lt bytes (by omega)
    have := leftChunks_pos (chunkCount bytes)
    simp only [chunkLen] at *
    omega

/-- The binary ones of `n`. -/
def popcount (n : ℕ) : ℕ := n.bits.count true

@[simp] lemma popcount_two_mul (n : ℕ) : popcount (2 * n) = popcount n := by
  rcases Nat.eq_zero_or_pos n with rfl | h
  · rfl
  · rw [popcount, Nat.bit0_bits n (by omega), List.count_cons]
    simp [popcount]

@[simp] lemma popcount_two_mul_add_one (n : ℕ) : popcount (2 * n + 1) = popcount n + 1 := by
  rw [popcount, Nat.bit1_bits, List.count_cons]
  simp [popcount]

/-! ## Chunks -/

namespace ChunkState

/-- The output of the chunk when `tail` is absorbed next, and nothing after it. -/
def rest (s : ChunkState) (tail : List UInt8) : Output :=
  chunkOutput s.chainingValue s.chunkCounter s.startFlag (s.block ++ tail)

lemma rest_nil {s : ChunkState} (h : s.block.length ≤ blockLen) : s.rest [] = s.output := by
  rw [rest, List.append_nil, chunkOutput, if_pos h, output]

/-- A full block is compressed as the chain has it, once there is more to come. -/
lemma rest_flush (s : ChunkState) {tail : List UInt8} (h : tail ≠ []) :
    s.flush.rest tail = s.rest tail := by
  rw [flush]
  split
  · next hfull =>
      have hlen : ¬ (s.block ++ tail).length ≤ blockLen := by
        rw [List.length_append, hfull]
        have := List.length_pos_iff.mpr h
        omega
      rw [rest, rest, chunkOutput.eq_1 s.chainingValue, if_neg hlen]
      rw [← hfull, List.take_left, List.drop_left, hfull]
      simp [startFlag]
  · rfl

lemma len_flush (s : ChunkState) : s.flush.len = s.len := by
  rw [flush]
  split
  · next hfull => simp [len, hfull, Nat.mul_succ]
  · rfl

lemma block_flush {s : ChunkState} (h : s.block.length ≤ blockLen) :
    s.flush.block.length < blockLen := by
  rw [flush]
  split
  · simp [blockLen]
  · omega

/-- What absorbing `input` keeps of a chunk. -/
lemma updateLoop_spec (fuel : ℕ) (s : ChunkState) (input : List UInt8)
    (hblock : s.block.length ≤ blockLen) (hfuel : input.length ≤ fuel) :
    (updateLoop fuel s input).block.length ≤ blockLen ∧
      (updateLoop fuel s input).len = s.len + input.length ∧
      ∀ tail, (updateLoop fuel s input).rest tail = s.rest (input ++ tail) := by
  induction fuel generalizing s input with
  | zero =>
      obtain rfl : input = [] := List.eq_nil_of_length_eq_zero (by omega)
      exact ⟨hblock, rfl, fun tail => rfl⟩
  | succ fuel ih =>
      rw [updateLoop]
      split
      · next hnil =>
          subst hnil
          exact ⟨hblock, rfl, fun tail => rfl⟩
      · next hne =>
          have hpos := List.length_pos_iff.mpr hne
          have hroom := block_flush hblock
          dsimp only
          obtain ⟨take, htake⟩ : ∃ take, take = min (blockLen - s.flush.block.length) input.length :=
            ⟨_, rfl⟩
          rw [← htake]
          have hlen : (input.take take).length = take := by
            rw [List.length_take]
            omega
          obtain ⟨hblock', hlen', hrest⟩ := ih
            { s.flush with block := s.flush.block ++ input.take take } (input.drop take)
            (by rw [List.length_append]; omega) (by rw [List.length_drop]; omega)
          refine ⟨hblock', ?_, fun tail => ?_⟩
          · rw [hlen', ← len_flush s, List.length_drop]
            simp only [len, List.length_append, hlen]
            omega
          · rw [hrest, rest]
            rw [show s.flush.block ++ input.take take ++ (input.drop take ++ tail)
              = s.flush.block ++ (input ++ tail) by
                rw [List.append_assoc, ← List.append_assoc (input.take take), List.take_append_drop]]
            exact rest_flush s (by simp [hne])

end ChunkState

/-! ## Finished chunks -/

section Data

variable (data : List UInt8)

/-- The chaining value of the chunk `i`. -/
def chunkCv (i : ℕ) : Cv :=
  (chunkOutput iv i chunkStart ((data.drop (chunkLen * i)).take chunkLen)).chainingValue

/-- The chaining value of the perfect subtree `i` of height `l`. -/
def perfect : ℕ → ℕ → Cv
  | 0, i => chunkCv data i
  | l + 1, i => (parentOutput (perfect l (2 * i)) (perfect l (2 * i + 1))).chainingValue

/-- The stack for `n` perfect subtrees of height `l`, the newest value first. -/
inductive Spine : ℕ → ℕ → List Cv → Prop where
  | zero (l : ℕ) : Spine l 0 []
  | even {l n : ℕ} {stack : List Cv} : Spine (l + 1) n stack → Spine l (2 * n) stack
  | odd {l n : ℕ} {stack : List Cv} :
      Spine (l + 1) n stack → Spine l (2 * n + 1) (perfect data l (2 * n) :: stack)

variable {data}

namespace Spine

/-- One value for each binary one. -/
lemma length_eq {l n : ℕ} {stack : List Cv} (h : Spine data l n stack) :
    stack.length = popcount n := by
  induction h with
  | zero l => rfl
  | even _ ih => simpa using ih
  | odd _ ih => simpa using ih

/-- Merging by trailing zeros adds one subtree. -/
lemma addChunk {l n : ℕ} {stack : List Cv} (h : Spine data l n stack) :
    ∃ stack', Hasher.addChunkChainingValue stack (perfect data l n) (n + 1) = .ok stack' ∧
      Spine data l (n + 1) stack' := by
  induction h with
  | zero l => exact ⟨_, rfl, .odd (.zero (l + 1))⟩
  | @even l n stack h _ =>
      refine ⟨perfect data l (2 * n) :: stack, ?_, .odd h⟩
      cases stack with
      | nil => rw [Hasher.addChunkChainingValue, if_neg (by omega)]
      | cons left stack => rw [Hasher.addChunkChainingValue, if_neg (by omega)]
  | @odd l n stack h ih =>
      -- the last two subtrees become the subtree `n` of the next height
      obtain ⟨stack', hok, hstack⟩ := ih
      refine ⟨stack', ?_, hstack.even⟩
      rw [Hasher.addChunkChainingValue, if_pos (by omega),
        show (2 * n + 1 + 1) / 2 = n + 1 by omega]
      exact hok

end Spine

/-! ## The right edge -/

lemma log2_of_lt {l k : ℕ} (h : k < 2 ^ l) : (2 ^ l + k).log2 = l := by
  rw [Nat.log2_eq_iff (by have := Nat.two_pow_pos l; omega)]
  rw [pow_succ]
  omega

/-- A node over more than `2 ^ l` and at most twice as many chunks has `2 ^ l` on its left. -/
lemma leftChunks_eq {bytes : List UInt8} {l : ℕ} (hgt : chunkLen * 2 ^ l < bytes.length)
    (hle : bytes.length ≤ chunkLen * 2 ^ (l + 1)) : leftChunks (chunkCount bytes) = 2 ^ l := by
  obtain ⟨k, hk, hcount⟩ : ∃ k, k < 2 ^ l ∧ chunkCount bytes - 1 = 2 ^ l + k := by
    refine ⟨chunkCount bytes - 1 - 2 ^ l, ?_, ?_⟩
    · rw [pow_succ] at hle
      have := Nat.two_pow_pos l
      simp only [chunkCount, chunkLen] at *
      omega
    · simp only [chunkCount, chunkLen] at *
      omega
  rw [leftChunks, hcount, log2_of_lt hk]

/-- The tree over `2 ^ l` full chunks. -/
lemma treeOutput_perfect {l i : ℕ} (h : chunkLen * ((i + 1) * 2 ^ l) ≤ data.length) :
    (treeOutput (i * 2 ^ l)
      ((data.drop (chunkLen * (i * 2 ^ l))).take (chunkLen * 2 ^ l))).chainingValue
        = perfect data l i := by
  induction l generalizing i with
  | zero =>
      rw [treeOutput, if_pos (by rw [List.length_take]; omega), perfect, chunkCv]
      simp
  | succ l ih =>
      obtain ⟨bytes, hbytes⟩ : ∃ bytes, bytes
        = (data.drop (chunkLen * (i * 2 ^ (l + 1)))).take (chunkLen * 2 ^ (l + 1)) := ⟨_, rfl⟩
      have hpos := Nat.two_pow_pos l
      have hdouble : chunkLen * 2 ^ (l + 1) = chunkLen * 2 ^ l + chunkLen * 2 ^ l := by
        rw [pow_succ]
        ring
      have htwo : i * 2 ^ (l + 1) = 2 * i * 2 ^ l := by
        rw [pow_succ]
        ring
      have hnext : i * 2 ^ (l + 1) + 2 ^ l = (2 * i + 1) * 2 ^ l := by
        rw [htwo, Nat.add_mul, Nat.one_mul]
      have hend : (i + 1) * 2 ^ (l + 1) = (2 * i + 1 + 1) * 2 ^ l := by
        rw [pow_succ]
        ring
      have hlen : bytes.length = chunkLen * 2 ^ (l + 1) := by
        rw [hbytes, List.length_take, List.length_drop]
        rw [Nat.add_mul, Nat.one_mul, Nat.mul_add] at h
        omega
      have hgt : chunkLen * 2 ^ l < bytes.length := by
        rw [hlen, hdouble]
        simp only [chunkLen]
        omega
      have hmany : ¬ bytes.length ≤ chunkLen := by
        simp only [chunkLen] at *
        omega
      rw [← hbytes, treeOutput, if_neg hmany, leftChunks_eq hgt hlen.le, perfect]
      dsimp only
      rw [hend] at h
      congr 2
      · rw [hbytes, List.take_take, hdouble, Nat.min_eq_left (by omega), htwo]
        refine ih (le_trans (Nat.mul_le_mul_left _ (Nat.mul_le_mul_right _ ?_)) h)
        omega
      · rw [hbytes, hdouble, List.drop_take, Nat.add_sub_cancel_left, List.drop_drop,
          ← Nat.mul_add, hnext]
        exact ih h

variable (data) in
/-- The tree over everything from the perfect subtree `n` of height `l` on. -/
def rightEdge (l n : ℕ) : Output := treeOutput (n * 2 ^ l) (data.drop (chunkLen * (n * 2 ^ l)))

/-- Folding the stack into the right edge gives the tree. -/
lemma finalizeOutput_spine {l n : ℕ} {stack : List Cv} (h : Spine data l n stack)
    (hle : data.length ≤ chunkLen * ((n + 1) * 2 ^ l))
    (hgt : n ≠ 0 → chunkLen * (n * 2 ^ l) < data.length) :
    Hasher.finalizeOutput (rightEdge data l n) stack = treeOutput 0 data := by
  induction h with
  | zero l => rw [Hasher.finalizeOutput, rightEdge, Nat.zero_mul, Nat.mul_zero, List.drop_zero]
  | @even l n stack h ih =>
      have htwo : 2 * n * 2 ^ l = n * 2 ^ (l + 1) := by
        rw [pow_succ]
        ring
      have hnext : (2 * n + 1) * 2 ^ l ≤ (n + 1) * 2 ^ (l + 1) := by
        rw [pow_succ, Nat.mul_comm (2 ^ l), ← Nat.mul_assoc]
        exact Nat.mul_le_mul_right _ (by omega)
      rw [rightEdge, htwo]
      refine ih (hle.trans (Nat.mul_le_mul_left _ hnext)) fun hn => ?_
      rw [← htwo]
      exact hgt (by omega)
  | @odd l n stack h ih =>
      -- the newest subtree and the right edge are the two sides of the next right edge
      obtain ⟨bytes, hbytes⟩ : ∃ bytes, bytes = data.drop (chunkLen * (n * 2 ^ (l + 1))) := ⟨_, rfl⟩
      have hpos := Nat.two_pow_pos l
      have htwo : n * 2 ^ (l + 1) = 2 * n * 2 ^ l := by
        rw [pow_succ]
        ring
      have hnext : n * 2 ^ (l + 1) + 2 ^ l = (2 * n + 1) * 2 ^ l := by
        rw [htwo, Nat.add_mul, Nat.one_mul]
      have hend : (2 * n + 1 + 1) * 2 ^ l = (n + 1) * 2 ^ (l + 1) := by
        rw [pow_succ]
        ring
      have hgt := hgt (by omega)
      rw [hend] at hle
      have hlower : chunkLen * 2 ^ l < bytes.length := by
        rw [← hnext, Nat.mul_add] at hgt
        rw [hbytes, List.length_drop]
        omega
      have hupper : bytes.length ≤ chunkLen * 2 ^ (l + 1) := by
        rw [Nat.add_mul, Nat.one_mul, Nat.mul_add] at hle
        rw [hbytes, List.length_drop]
        omega
      have hmany : ¬ bytes.length ≤ chunkLen := by
        simp only [chunkLen] at *
        omega
      have hedge : rightEdge data (l + 1) n
          = parentOutput (perfect data l (2 * n)) (rightEdge data l (2 * n + 1)).chainingValue := by
        have hleft : (treeOutput (n * 2 ^ (l + 1)) (bytes.take (chunkLen * 2 ^ l))).chainingValue
            = perfect data l (2 * n) := by
          rw [hbytes, htwo]
          exact treeOutput_perfect hgt.le
        have hright : bytes.drop (chunkLen * 2 ^ l)
            = data.drop (chunkLen * ((2 * n + 1) * 2 ^ l)) := by
          rw [hbytes, List.drop_drop, ← Nat.mul_add, hnext]
        rw [rightEdge, ← hbytes, treeOutput, if_neg hmany, leftChunks_eq hlower hupper]
        dsimp only
        rw [hleft, hright, hnext, rightEdge]
      rw [Hasher.finalizeOutput, ← hedge]
      refine ih hle fun _ => lt_of_le_of_lt (Nat.mul_le_mul_left _ ?_) hgt
      rw [htwo]
      exact Nat.mul_le_mul_right _ (by omega)

/-! ## Absorbing -/

/-- The hasher has absorbed the first `p` bytes of the input. -/
structure Absorbed (data : List UInt8) (p : ℕ) (h : Hasher) : Prop where
  spine : Spine data 0 h.chunkState.chunkCounter h.cvStack
  start_le : chunkLen * h.chunkState.chunkCounter ≤ p
  le_end : p ≤ chunkLen * (h.chunkState.chunkCounter + 1)
  le_length : p ≤ data.length
  len_eq : h.chunkState.len = p - chunkLen * h.chunkState.chunkCounter
  block_le : h.chunkState.block.length ≤ blockLen
  rest_eq : ∀ tail, h.chunkState.rest tail = (ChunkState.new h.chunkState.chunkCounter).rest
    ((data.drop (chunkLen * h.chunkState.chunkCounter)).take
      (p - chunkLen * h.chunkState.chunkCounter) ++ tail)

/-- A chunk is finished only when there is more to come. -/
def Lazy (p : ℕ) (h : Hasher) : Prop :=
  h.chunkState.chunkCounter ≠ 0 → chunkLen * h.chunkState.chunkCounter < p

namespace Absorbed

variable {p : ℕ} {h : Hasher}

lemma new (data : List UInt8) : Absorbed data 0 Hasher.new where
  spine := .zero 0
  start_le := Nat.le_refl _
  le_end := Nat.zero_le _
  le_length := Nat.zero_le _
  len_eq := rfl
  block_le := Nat.zero_le _
  rest_eq _ := rfl

lemma output_eq (ha : Absorbed data p h) : h.chunkState.output
    = chunkOutput iv h.chunkState.chunkCounter chunkStart
        ((data.drop (chunkLen * h.chunkState.chunkCounter)).take
          (p - chunkLen * h.chunkState.chunkCounter)) := by
  rw [← ChunkState.rest_nil ha.block_le, ha.rest_eq, List.append_nil, ChunkState.rest]
  simp [ChunkState.new, ChunkState.startFlag]

/-- Finishing a full chunk keeps what has been absorbed, and makes room. -/
lemma flush (ha : Absorbed data p h) : ∃ h', h.flush = .ok h' ∧ Absorbed data p h' ∧
    p < chunkLen * (h'.chunkState.chunkCounter + 1) := by
  rw [Hasher.flush]
  split
  · next hfull =>
      have hstart := ha.start_le
      have hp : p - chunkLen * h.chunkState.chunkCounter = chunkLen := by rw [← ha.len_eq, hfull]
      have hcv : h.chunkState.output.chainingValue = perfect data 0 h.chunkState.chunkCounter := by
        rw [ha.output_eq, hp, perfect, chunkCv]
      obtain ⟨stack, hok, hstack⟩ := ha.spine.addChunk
      rw [hcv]
      dsimp only
      rw [hok, ok_bind]
      have hend : p = chunkLen * (h.chunkState.chunkCounter + 1) := by
        rw [Nat.mul_succ]
        omega
      refine ⟨_, rfl, ⟨hstack, hend.ge, ?_, ha.le_length, ?_, Nat.zero_le _, fun tail => ?_⟩, ?_⟩
      · simp only [ChunkState.new, chunkLen] at *
        omega
      · simp [ChunkState.new, ChunkState.len, hend]
      · simp [ChunkState.new, hend]
      · simp only [ChunkState.new, chunkLen] at *
        omega
  · next hfull =>
      refine ⟨h, rfl, ha, ?_⟩
      have hend := ha.le_end
      have hstart := ha.start_le
      rw [ha.len_eq] at hfull
      rw [Nat.mul_succ] at hend ⊢
      omega

/-- What absorbing `input` next keeps. -/
lemma updateLoop {fuel : ℕ} (ha : Absorbed data p h) (hl : Lazy p h) {input : List UInt8}
    (hinput : input <+: data.drop p) (hfuel : input.length ≤ fuel) :
    ∃ h', Hasher.updateLoop fuel h input = .ok h' ∧ Absorbed data (p + input.length) h' ∧
      Lazy (p + input.length) h' := by
  induction fuel generalizing p h input with
  | zero =>
      obtain rfl : input = [] := List.eq_nil_of_length_eq_zero (by omega)
      exact ⟨h, rfl, ha, hl⟩
  | succ fuel ih =>
      rw [Hasher.updateLoop]
      split
      · next hnil =>
          subst hnil
          exact ⟨h, rfl, ha, hl⟩
      · next hne =>
          have hpos := List.length_pos_iff.mpr hne
          obtain ⟨h', hok, ha', hroom⟩ := ha.flush
          rw [hok, ok_bind]
          dsimp only
          obtain ⟨take, htake⟩ : ∃ take, take = min (chunkLen - h'.chunkState.len) input.length :=
            ⟨_, rfl⟩
          rw [← htake]
          have hlen : (input.take take).length = take := by
            rw [List.length_take]
            omega
          have hstart := ha'.start_le
          have htakePos : 0 < take := by
            rw [ha'.len_eq] at htake
            rw [Nat.mul_succ] at hroom
            omega
          have hinput' : input = (data.drop p).take input.length := List.prefix_iff_eq_take.mp hinput
          have hinputLen := congrArg List.length hinput'
          rw [List.length_take, List.length_drop] at hinputLen
          have htaken : input.take take = (data.drop p).take take := by
            rw [hinput', List.take_take, Nat.min_eq_left (by omega)]
          obtain ⟨hblock, hlen', hrest⟩ := ChunkState.updateLoop_spec
            (input.take take).length h'.chunkState (input.take take) ha'.block_le (Nat.le_refl _)
          have hcounter := ChunkState.chunkCounter_updateLoop (input.take take).length h'.chunkState
            (input.take take)
          rw [← ChunkState.update] at hblock hlen' hcounter
          have hnext : Absorbed data (p + take)
              { h' with chunkState := h'.chunkState.update (input.take take) } := by
            refine ⟨?_, ?_, ?_, by omega, ?_, hblock, fun tail => ?_⟩
            · rw [hcounter]
              exact ha'.spine
            · rw [hcounter]
              omega
            · rw [hcounter, Nat.mul_succ]
              rw [ha'.len_eq] at htake
              omega
            · rw [hcounter, hlen', ha'.len_eq, hlen]
              omega
            · have hgrow : (data.drop (chunkLen * h'.chunkState.chunkCounter)).take
                  (p + take - chunkLen * h'.chunkState.chunkCounter)
                  = (data.drop (chunkLen * h'.chunkState.chunkCounter)).take
                      (p - chunkLen * h'.chunkState.chunkCounter) ++ input.take take := by
                rw [htaken, Nat.sub_add_comm hstart, List.take_add, List.drop_drop,
                  Nat.add_sub_cancel' hstart]
              rw [hcounter, hgrow, List.append_assoc, ← ha'.rest_eq]
              exact hrest tail
          have hlazy : Lazy (p + take)
              { h' with chunkState := h'.chunkState.update (input.take take) } := by
            intro _
            show chunkLen * (h'.chunkState.update (input.take take)).chunkCounter < p + take
            rw [hcounter]
            omega
          have hrestInput : input.drop take <+: data.drop (p + take) := by
            obtain ⟨tail, htail⟩ := hinput
            rw [← List.drop_drop, ← htail, List.drop_append_of_le_length (by omega)]
            exact List.prefix_append _ _
          obtain ⟨h₂, hok₂, ha₂, hl₂⟩ := ih hnext hlazy hrestInput (by rw [List.length_drop]; omega)
          have hp : p + take + (input.drop take).length = p + input.length := by
            rw [List.length_drop]
            omega
          rw [hp] at ha₂ hl₂
          exact ⟨h₂, hok₂, ha₂, hl₂⟩

/-- When all of the input has been absorbed the hasher gives the digest of the tree. -/
lemma finalize (ha : Absorbed data data.length h) (hl : Lazy data.length h) :
    h.finalize = (treeOutput 0 data).rootHash := by
  have hstart := ha.start_le
  have hend := ha.le_end
  obtain ⟨n, hn⟩ : ∃ n, n = h.chunkState.chunkCounter := ⟨_, rfl⟩
  have houtput : h.chunkState.output = rightEdge data 0 n := by
    rw [ha.output_eq, ← hn, rightEdge, pow_zero, Nat.mul_one, treeOutput, if_pos,
      List.take_of_length_le]
    · rw [List.length_drop]
    · rw [← hn, Nat.mul_succ] at hend
      rw [List.length_drop]
      omega
  rw [Hasher.finalize, houtput, finalizeOutput_spine (hn ▸ ha.spine)]
  · simpa [hn] using hend
  · intro h0
    simpa [hn] using hl (hn ▸ h0)

end Absorbed

/-- All the parts, one `update` call for each. -/
lemma Absorbed.updates {p : ℕ} {h : Hasher} (ha : Absorbed data p h) (hl : Lazy p h)
    {parts : List (List UInt8)} (hparts : data.drop p = parts.flatten) :
    ∃ h', parts.foldlM Hasher.update h = .ok h' ∧ Absorbed data data.length h' ∧
      Lazy data.length h' := by
  induction parts generalizing p h with
  | nil =>
      have hle := List.drop_eq_nil_iff.mp hparts
      obtain rfl : p = data.length := Nat.le_antisymm ha.le_length hle
      exact ⟨h, rfl, ha, hl⟩
  | cons part parts ih =>
      rw [List.flatten_cons] at hparts
      obtain ⟨h', hok, ha', hl'⟩ := ha.updateLoop hl
        (hparts ▸ List.prefix_append part parts.flatten) (Nat.le_refl part.length)
      have hrest : data.drop (p + part.length) = parts.flatten := by
        rw [← List.drop_drop, hparts, List.drop_left]
      obtain ⟨h₂, hok₂, hdone⟩ := ih ha' hl' hrest
      refine ⟨h₂, ?_, hdone⟩
      rw [List.foldlM_cons, Hasher.update, hok]
      exact hok₂

end Data

/-- However the input is split into `update` calls, no call pops from an empty stack, the stack
then has one value for each binary one of the number of finished chunks, and `finalize` gives
the digest of the tree over the whole input. -/
theorem finalize_updates (parts : List (List UInt8)) :
    ∃ h, parts.foldlM Hasher.update Hasher.new = .ok h ∧
      h.cvStack.length = popcount h.chunkState.chunkCounter ∧
      h.finalize = (treeOutput 0 parts.flatten).rootHash := by
  obtain ⟨h, hok, ha, hl⟩ := (Absorbed.new parts.flatten).updates (fun h => absurd rfl h)
    (List.drop_zero)
  exact ⟨h, hok, ha.spine.length_eq, ha.finalize hl⟩

end RustBinary.Hash
