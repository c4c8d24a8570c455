import RustBinary.Lib.Bytes
import RustBinary.Lib.Outcome

/-!
# BLAKE3

The streaming hasher and the one-shot digest.  Words are 32 bits wide and wrap; the counters
of chunks and blocks are natural numbers, since no input is long enough for them to wrap.

A block buffer holds the bytes that have been buffered; the rest of the array is zero and is
put back where the block is read as words.  The stack of subtree values has its newest value
first.
-/

namespace RustBinary.Hash

open Lib Lib.Outcome

/-! ## Compression -/

/-- A chaining value. -/
abbrev Cv : Type := Vector UInt32 8

/-- The state of a compression, and a message block. -/
abbrev Words : Type := Vector UInt32 16

/-- BLAKE3 initial state. -/
def iv : Cv :=
  #v[0x6A09E667, 0xBB67AE85, 0x3C6EF372, 0xA54FF53A, 0x510E527F, 0x9B05688C, 0x1F83D9AB,
    0x5BE0CD19]

/-- Number of bytes per chunk. -/
def chunkLen : ℕ := 1024

/-- Number of bytes per compression block. -/
def blockLen : ℕ := 64

/-- First block of a chunk. -/
def chunkStart : UInt32 := 1

/-- Last block of a chunk. -/
def chunkEnd : UInt32 := 2

/-- Compression of a parent block. -/
def parentFlag : UInt32 := 4

/-- Root compression of the tree. -/
def rootFlag : UInt32 := 8

/-- The message schedule. -/
def msgPermutation : Vector (Fin 16) 16 := #v[2, 6, 3, 10, 7, 0, 4, 13, 1, 11, 12, 5, 9, 14, 15, 8]

def rotateRight (x n : UInt32) : UInt32 := (x >>> n) ||| (x <<< (32 - n))

/-- The mixing function `G`. -/
def g (a b c d : Fin 16) (mx my : UInt32) (state : Words) : Words :=
  let state := state.set a (state[a] + state[b] + mx)
  let state := state.set d (rotateRight (state[d] ^^^ state[a]) 16)
  let state := state.set c (state[c] + state[d])
  let state := state.set b (rotateRight (state[b] ^^^ state[c]) 12)
  let state := state.set a (state[a] + state[b] + my)
  let state := state.set d (rotateRight (state[d] ^^^ state[a]) 8)
  let state := state.set c (state[c] + state[d])
  state.set b (rotateRight (state[b] ^^^ state[c]) 7)

/-- One round: the columns and then the diagonals. -/
def round (message state : Words) : Words :=
  let state := g 0 4 8 12 message[0] message[1] state
  let state := g 1 5 9 13 message[2] message[3] state
  let state := g 2 6 10 14 message[4] message[5] state
  let state := g 3 7 11 15 message[6] message[7] state
  let state := g 0 5 10 15 message[8] message[9] state
  let state := g 1 6 11 12 message[10] message[11] state
  let state := g 2 7 8 13 message[12] message[13] state
  g 3 4 9 14 message[14] message[15] state

/-- The schedule, applied to a message block. -/
def permute (message : Words) : Words := msgPermutation.map fun i => message[i]

/-- `n` further rounds, each with the block permuted once more. -/
def rounds : ℕ → Words → Words → Words
  | 0, _, state => state
  | n + 1, block, state => rounds n (permute block) (round (permute block) state)

/-- The compression function. -/
def compress (cv : Cv) (block : Words) (counter blockLen : ℕ) (flags : UInt32) : Words :=
  let state : Words := cv ++
    #v[iv[0], iv[1], iv[2], iv[3], UInt32.ofNat counter, UInt32.ofNat (counter / 2 ^ 32),
      UInt32.ofNat blockLen, flags]
  let state := rounds 6 block (round block state)
  let low : Cv := state.extract 0 8
  let high : Cv := state.extract 8 16
  low.zipWith (· ^^^ ·) high ++ high.zipWith (· ^^^ ·) cv

/-- The first `n` little-endian words of a byte string, which is padded with zeros. -/
def wordsOfBytes : ℕ → List UInt8 → List UInt32
  | 0, _ => []
  | n + 1, bytes => UInt32.ofNat (leNat (bytes.take 4)) :: wordsOfBytes n (bytes.drop 4)

lemma length_wordsOfBytes (n : ℕ) (bytes : List UInt8) : (wordsOfBytes n bytes).length = n := by
  induction n generalizing bytes with
  | zero => rfl
  | succ n ih => rw [wordsOfBytes, List.length_cons, ih]

/-- `words_from_bytes`. -/
def wordsFromBytes (bytes : List UInt8) : Words :=
  ⟨(wordsOfBytes 16 bytes).toArray, by rw [List.size_toArray, length_wordsOfBytes]⟩

/-! ## Outputs -/

/-- A node of the tree before the choice between a chaining value and the digest. -/
structure Output where
  inputChainingValue : Cv
  blockWords : Words
  counter : ℕ
  blockLen : ℕ
  flags : UInt32

namespace Output

def chainingValue (out : Output) : Cv :=
  (compress out.inputChainingValue out.blockWords out.counter out.blockLen out.flags).extract 0 8

/-- The digest, as the bytes of the first eight words. -/
def rootHash (out : Output) : List UInt8 :=
  let words := compress out.inputChainingValue out.blockWords 0 out.blockLen
    (out.flags ||| rootFlag)
  (words.toList.take 8).flatMap fun word => leBytes 4 word.toNat

lemma length_rootHash (out : Output) : out.rootHash.length = 32 := by
  rw [rootHash, List.length_flatMap, List.map_eq_replicate_iff (b := 4) |>.mpr]
  · simp
  · intro word _
    exact length_leBytes 4 word.toNat

end Output

def parentOutput (left right : Cv) : Output where
  inputChainingValue := iv
  blockWords := left ++ right
  counter := 0
  blockLen := blockLen
  flags := parentFlag

/-! ## Chunks -/

/-- The chunk that is being absorbed. -/
structure ChunkState where
  chainingValue : Cv
  chunkCounter : ℕ
  block : List UInt8
  blocksCompressed : ℕ

namespace ChunkState

def new (chunkCounter : ℕ) : ChunkState := ⟨iv, chunkCounter, [], 0⟩

/-- Bytes absorbed so far. -/
def len (s : ChunkState) : ℕ := blockLen * s.blocksCompressed + s.block.length

def startFlag (s : ChunkState) : UInt32 := if s.blocksCompressed = 0 then chunkStart else 0

/-- A full block buffer is compressed into the chaining value. -/
def flush (s : ChunkState) : ChunkState :=
  if s.block.length = blockLen then
    { s with
      chainingValue := (compress s.chainingValue (wordsFromBytes s.block) s.chunkCounter blockLen
        s.startFlag).extract 0 8
      blocksCompressed := s.blocksCompressed + 1
      block := [] }
  else s

/-- The loop of `update`; every round takes at least one byte. -/
def updateLoop : ℕ → ChunkState → List UInt8 → ChunkState
  | 0, s, _ => s
  | fuel + 1, s, input =>
      if input = [] then s
      else
        let s := s.flush
        let take := min (blockLen - s.block.length) input.length
        updateLoop fuel { s with block := s.block ++ input.take take } (input.drop take)

def update (s : ChunkState) (input : List UInt8) : ChunkState := updateLoop input.length s input

def output (s : ChunkState) : Output where
  inputChainingValue := s.chainingValue
  blockWords := wordsFromBytes s.block
  counter := s.chunkCounter
  blockLen := s.block.length
  flags := s.startFlag ||| chunkEnd

end ChunkState

/-! ## The hasher -/

structure Hasher where
  chunkState : ChunkState
  cvStack : List Cv

namespace Hasher

def new : Hasher := ⟨ChunkState.new 0, []⟩

/-- `add_chunk_chaining_value`; `totalChunks` is the number of chunks that are complete. -/
def addChunkChainingValue : List Cv → Cv → ℕ → Outcome Empty (List Cv)
  | [], newCv, totalChunks => if totalChunks % 2 = 0 then .panic else .ok [newCv]
  | left :: stack, newCv, totalChunks =>
      if totalChunks % 2 = 0 then
        addChunkChainingValue stack (parentOutput left newCv).chainingValue (totalChunks / 2)
      else .ok (newCv :: left :: stack)

/-- A full chunk is merged into the tree. -/
def flush (h : Hasher) : Outcome Empty Hasher :=
  if h.chunkState.len = chunkLen then do
    let totalChunks := h.chunkState.chunkCounter + 1
    let stack ← addChunkChainingValue h.cvStack h.chunkState.output.chainingValue totalChunks
    pure ⟨ChunkState.new totalChunks, stack⟩
  else pure h

/-- The loop of `update`; every round takes at least one byte. -/
def updateLoop : ℕ → Hasher → List UInt8 → Outcome Empty Hasher
  | 0, h, _ => pure h
  | fuel + 1, h, input =>
      if input = [] then pure h
      else do
        let h ← h.flush
        let take := min (chunkLen - h.chunkState.len) input.length
        updateLoop fuel { h with chunkState := h.chunkState.update (input.take take) }
          (input.drop take)

def update (h : Hasher) (input : List UInt8) : Outcome Empty Hasher :=
  updateLoop input.length h input

/-- The subtrees on the stack are merged, the newest first. -/
def finalizeOutput (out : Output) : List Cv → Output
  | [] => out
  | left :: stack => finalizeOutput (parentOutput left out.chainingValue) stack

def finalize (h : Hasher) : List UInt8 :=
  (finalizeOutput h.chunkState.output h.cvStack).rootHash

lemma length_finalize (h : Hasher) : h.finalize.length = 32 := Output.length_rootHash _

end Hasher

/-- `blake3`. -/
def blake3 (input : List UInt8) : Outcome Empty (List UInt8) := do
  let h ← Hasher.new.update input
  pure h.finalize

/-! ## The digest -/

/-- The stack after `n` chunks: one subtree for each binary digit one of `n`, the smallest
first. -/
inductive StackOf : ℕ → List Cv → Prop where
  | zero : StackOf 0 []
  | even {n : ℕ} {stack : List Cv} : StackOf n stack → StackOf (2 * n) stack
  | odd {n : ℕ} {stack : List Cv} (cv : Cv) : StackOf n stack → StackOf (2 * n + 1) (cv :: stack)

lemma StackOf.addChunk {n : ℕ} {stack : List Cv} (h : StackOf n stack) (cv : Cv) :
    ∃ stack', Hasher.addChunkChainingValue stack cv (n + 1) = .ok stack' ∧
      StackOf (n + 1) stack' := by
  induction h generalizing cv with
  | zero => exact ⟨[cv], rfl, .odd cv .zero⟩
  | @even n stack h _ =>
      refine ⟨cv :: stack, ?_, .odd cv h⟩
      cases stack with
      | nil => rw [Hasher.addChunkChainingValue, if_neg (by omega)]
      | cons left stack => rw [Hasher.addChunkChainingValue, if_neg (by omega)]
  | @odd n stack left h ih =>
      obtain ⟨stack', hok, hstack⟩ := ih (parentOutput left cv).chainingValue
      refine ⟨stack', ?_, hstack.even⟩
      rw [Hasher.addChunkChainingValue, if_pos (by omega),
        show (2 * n + 1 + 1) / 2 = n + 1 by omega, hok]

lemma ChunkState.chunkCounter_updateLoop (fuel : ℕ) (s : ChunkState) (input : List UInt8) :
    (ChunkState.updateLoop fuel s input).chunkCounter = s.chunkCounter := by
  induction fuel generalizing s input with
  | zero => rfl
  | succ fuel ih =>
      rw [ChunkState.updateLoop]
      split
      · rfl
      · rw [ih, ChunkState.flush]
        split <;> rfl

/-- The stack never underflows. -/
lemma Hasher.updateLoop_returns (fuel : ℕ) {h : Hasher} (input : List UInt8)
    (hstack : StackOf h.chunkState.chunkCounter h.cvStack) :
    ∃ h', Hasher.updateLoop fuel h input = .ok h' := by
  induction fuel generalizing h input with
  | zero => exact ⟨h, rfl⟩
  | succ fuel ih =>
      rw [Hasher.updateLoop]
      split
      · exact ⟨h, rfl⟩
      · have hflush : ∃ h', h.flush = .ok h' ∧
            StackOf h'.chunkState.chunkCounter h'.cvStack := by
          rw [Hasher.flush]
          split
          · obtain ⟨stack, hok, hstack⟩ := hstack.addChunk h.chunkState.output.chainingValue
            dsimp only
            rw [hok]
            exact ⟨_, rfl, hstack⟩
          · exact ⟨h, rfl, hstack⟩
        obtain ⟨h', hok, hstack'⟩ := hflush
        rw [hok, ok_bind]
        refine ih _ ?_
        rwa [ChunkState.update, ChunkState.chunkCounter_updateLoop]

lemma blake3_returns (input : List UInt8) :
    ∃ digest : List UInt8, blake3 input = .ok digest ∧ digest.length = 32 := by
  obtain ⟨h, hok⟩ := Hasher.updateLoop_returns (h := Hasher.new) input.length input .zero
  refine ⟨h.finalize, ?_, h.length_finalize⟩
  rw [blake3, Hasher.update, hok]
  rfl

/-- The digest of `input`, which there always is. -/
def digest (input : List UInt8) : Vector UInt8 32 :=
  ⟨((blake3 input).ok?.getD []).toArray, by
    obtain ⟨d, hd, hlen⟩ := blake3_returns input
    rw [hd]
    exact hlen⟩

set_option maxRecDepth 100000 in
example : (digest [0x61, 0x62, 0x63]).toList.take 4 = [0x64, 0x37, 0xb3, 0xac] := by
  decide +kernel

end RustBinary.Hash
