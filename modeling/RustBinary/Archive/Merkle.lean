import RustBinary.Archive.Header
import RustBinary.Lib.Interval

/-!
# The Merkle tree over the payload

The hashes of blocks, padding and nodes, the levels of the tree, the hash section on disk, and
range proofs: how they are planned, built, replayed and verified.  The hash is a parameter.

A level of a proof is replayed in two steps, first the pairs that are hashed (`pairLevel`) and
then their hashes, so that what has been hashed can be spoken of.
-/

namespace RustBinary.Archive

open Lib Lib.Outcome

/-! ## Hash inputs -/

/-- Domain of a block. -/
def leafDomain : UInt8 := 0x00

/-- Domain of an internal node. -/
def nodeDomain : UInt8 := 0x01

/-- Domain of an absent block. -/
def padDomain : UInt8 := 0x02

/-- What `leaf_hash` hashes. -/
def leafInput (index : ℕ) (block : List UInt8) : List UInt8 :=
  leafDomain :: (beBytes 8 index ++ block)

/-- What `pad_hash` hashes. -/
def padInput (index : ℕ) : List UInt8 := padDomain :: beBytes 8 index

/-- What `node_hash` hashes. -/
def nodeInput (left right : Digest) : List UInt8 := nodeDomain :: (left.toList ++ right.toList)

section Hashes

variable (blake3 : List UInt8 → Digest)

def leafHash (index : ℕ) (block : List UInt8) : Digest := blake3 (leafInput index block)

def padHash (index : ℕ) : Digest := blake3 (padInput index)

def nodeHash (left right : Digest) : Digest := blake3 (nodeInput left right)

/-! ## The tree -/

/-- The block of the payload at `index`: `payload[start..end]`. -/
def blockAt (payload : List UInt8) (blockSize index : ℕ) : Result (List UInt8) :=
  orPanic (slice payload (index * blockSize) (min (index * blockSize + blockSize) payload.length))

/-- `leaf_hash_for`: a block or padding. -/
def leafHashFor (payload : List UInt8) (blockSize blockCount index : ℕ) : Result Digest :=
  if index < blockCount then do
    let block ← blockAt payload blockSize index
    pure (leafHash blake3 index block)
  else pure (padHash blake3 index)

end Hashes

/-- `div_ceil`. -/
def divCeil (n d : ℕ) : Result ℕ := if d = 0 then .panic else .ok ((n + (d - 1)) / d)

section Levels

variable (node : Digest → Digest → Digest)

/-- The level above: every two hashes give one. -/
def nextLevel (level : List Digest) : List Digest := (pairUp level).map fun p => node p.1 p.2

/-- The loop of `merkle_levels`: a level of `2 ^ k` hashes and the levels above it. -/
def levelsAbove : ℕ → List Digest → List (List Digest)
  | 0, level => [level]
  | k + 1, level => level :: levelsAbove k (nextLevel node level)

end Levels

/-- `merkle_levels`: the levels from the leaves up, and the number of blocks. -/
def merkleLevels (blake3 : List UInt8 → Digest) (payload : List UInt8) (blockSize : ℕ) :
    Result (List (List Digest) × ℕ) := do
  let blocks ← divCeil payload.length blockSize
  let blockCount := max blocks 1
  let height ← treeHeight blockCount
  let level ← mapAll (leafHashFor blake3 payload blockSize blockCount) (List.range (2 ^ height))
  pure (levelsAbove (nodeHash blake3) height level, blockCount)

/-- `levels[levels.len() - 1][0]`. -/
def topHash (levels : List (List Digest)) : Result Digest :=
  orPanic (levels.getLast?.bind List.head?)

/-- `serialize_hash_section`: level 1 first, the root last. -/
def serializeHashSection (levels : List (List Digest)) : List UInt8 :=
  (levels.drop 1).flatten.flatMap Vector.toList

/-- `read_section_hash`. -/
def readSectionHash (hashSection : List UInt8) (leafCount height level index : ℕ) : Result Digest :=
  let levelOffset := leafCount - 2 ^ (height - level + 1)
  readDigest hashSection ((levelOffset + index) * 32)

/-! ## Proof plans -/

/-- One level of a proof plan. -/
structure LevelPlan where
  covered : List ℕ
  siblings : List ℕ

/-- The siblings of the covered nodes that are not covered, where `prev` is the node in front of
them. -/
def planSiblings : Option ℕ → List ℕ → List ℕ
  | _, [] => []
  | prev, index :: rest =>
      if index % 2 = 1 then
        if prev = some (index - 1) then planSiblings (some index) rest
        else (index - 1) :: planSiblings (some index) rest
      else if rest.head? = some (index + 1) then planSiblings (some index) rest
      else (index + 1) :: planSiblings (some index) rest

/-- `map`, `sort_unstable` and `dedup`. -/
def planParents (covered : List ℕ) : List ℕ :=
  ((covered.map (· / 2)).insertionSort (· ≤ ·)).destutter (· ≠ ·)

/-- The loop of `compute_plan`. -/
def planLoop : ℕ → List ℕ → List LevelPlan
  | 0, _ => []
  | k + 1, covered => ⟨covered, planSiblings none covered⟩ :: planLoop k (planParents covered)

/-- `compute_plan`. -/
def computePlan (first last height : ℕ) : List LevelPlan := planLoop height (interval first last)

/-- The loop of `collect_siblings`: the siblings of the levels from `level` on. -/
def collectLoop (leaf : ℕ → Result Digest) (stored : ℕ → ℕ → Result Digest) :
    ℕ → List LevelPlan → Result (List Digest)
  | _, [] => pure []
  | level, plan :: plans => do
      let hashes ← mapAll (fun index => if level = 0 then leaf index else stored level index)
        plan.siblings
      let rest ← collectLoop leaf stored (level + 1) plans
      pure (hashes ++ rest)

/-- `collect_siblings`. -/
def collectSiblings (blake3 : List UInt8 → Digest) (payload hashSection : List UInt8)
    (blockSize blockCount height first last : ℕ) : Result (List Digest) :=
  collectLoop (leafHashFor blake3 payload blockSize blockCount)
    (readSectionHash hashSection (2 ^ height) height) 0 (computePlan first last height)

/-! ## Replaying -/

/-- A covered node and its sibling from the proof. -/
def pairSingle (index : ℕ) (hashes siblings : List Digest) : Result (Digest × Digest) := do
  let reason := if index % 2 = 1 then "missing left sibling" else "missing right sibling"
  let sibling ← okOr siblings.head? (.merkle reason)
  let hash ← orPanic hashes.head?
  pure (if index % 2 = 1 then (sibling, hash) else (hash, sibling))

/-- The pairs that are hashed for one level, and the siblings that are left. -/
def pairLevel : List ℕ → List Digest → List Digest →
    Result (List (Digest × Digest) × List Digest)
  | [], _, siblings => pure ([], siblings)
  | [index], hashes, siblings => do
      let pair ← pairSingle index hashes siblings
      pure ([pair], siblings.tail)
  | index :: next :: rest, hashes, siblings =>
      if index % 2 = 0 ∧ next = index + 1 then do
        let left ← orPanic hashes.head?
        let right ← orPanic hashes.tail.head?
        let (pairs, siblings) ← pairLevel rest hashes.tail.tail siblings
        pure ((left, right) :: pairs, siblings)
      else do
        let pair ← pairSingle index hashes siblings
        let (pairs, siblings) ← pairLevel (next :: rest) hashes.tail siblings.tail
        pure (pair :: pairs, siblings)

section Replay

variable (node : Digest → Digest → Digest)

/-- The loop of `replay_root` over the levels. -/
def replayLoop : List LevelPlan → List Digest → List Digest → Result (List Digest × List Digest)
  | [], hashes, siblings => pure (hashes, siblings)
  | plan :: plans, hashes, siblings => do
      let (pairs, siblings) ← pairLevel plan.covered hashes siblings
      replayLoop plans (pairs.map fun p => node p.1 p.2) siblings

/-- `replay_root`. -/
def replayRoot (coveredHashes : List Digest) (first last height : ℕ) (siblings : List Digest) :
    Result Digest := do
  let (hashes, siblings) ← replayLoop node (computePlan first last height) coveredHashes siblings
  require (siblings = []) (.merkle "unused sibling hashes")
  match hashes with
  | [root] => pure root
  | _ => .err (.merkle "proof did not collapse to one root")

end Replay

/-! ## Proofs -/

/-- Self-contained Merkle proof for one payload byte range. -/
structure MerkleProof where
  offset : UInt64
  len : UInt64
  blockSize : UInt32
  blockCount : UInt64
  payloadLen : UInt64
  blocks : List (List UInt8)
  siblings : List Digest
  root : Digest
deriving DecidableEq

/-- Division of a byte position by the block size. -/
def blockOf (position blockSize : ℕ) : Result ℕ :=
  if blockSize = 0 then .panic else .ok (position / blockSize)

/-- The first and the last block of a byte range. -/
def blockRange (offset len blockSize : ℕ) : Result (ℕ × ℕ) := do
  let first ← blockOf offset blockSize
  let last ← if len = 0 then pure first else blockOf (offset + len - 1) blockSize
  pure (first, last)

/-- The check that a byte range lies in the payload. -/
def checkRange (offset len payloadLen : ℕ) : Result Unit := do
  let stop ← okOr (checkedAdd offset len) (.merkle "proof range overflows")
  require (offset < payloadLen ∧ stop ≤ payloadLen) (.merkle "proof range exceeds the payload")

namespace MerkleProof

variable (blake3 : List UInt8 → Digest)

/-- `MerkleProof::verify`. -/
def verify (proof : MerkleProof) : Result Unit := do
  let height ← treeHeight proof.blockCount.toNat
  checkRange proof.offset.toNat proof.len.toNat proof.payloadLen.toNat
  let (first, last) ← blockRange proof.offset.toNat proof.len.toNat proof.blockSize.toNat
  require (last - first + 1 = proof.blocks.length) (.merkle "proof block count mismatch")
  let hashes := proof.blocks.zipIdx.map fun (block, index) => leafHash blake3 (first + index) block
  let root ← replayRoot (nodeHash blake3) hashes first last height proof.siblings
  require (root = proof.root) (.merkle "root digest does not match")

/-- The loop of `extract`: the bytes taken, and how many are still missing. -/
def takeLoop : ℕ → List (List UInt8) → ℕ → Result (List UInt8 × ℕ)
  | _, [], remaining => pure ([], remaining)
  | blockOffset, block :: blocks, remaining =>
      if block.length < blockOffset then .panic
      else do
        let take := min (block.length - blockOffset) remaining
        let (out, remaining) ← takeLoop 0 blocks (remaining - take)
        pure ((block.drop blockOffset).take take ++ out, remaining)

/-- `MerkleProof::extract`; a vector of more than `isize::MAX` bytes cannot be reserved. -/
def extract (proof : MerkleProof) : Result (List UInt8) := do
  proof.verify blake3
  let start := proof.offset.toNat % proof.blockSize.toNat
  if 2 ^ 63 ≤ proof.len.toNat then .panic
  else do
    let (out, remaining) ← takeLoop start proof.blocks proof.len.toNat
    require (remaining = 0) (.merkle "proof bytes do not cover the range")
    pure out

end MerkleProof

/-- `build_proof`. -/
def buildProof (blake3 : List UInt8 → Digest) (payload hashSection : List UInt8)
    (offset len : UInt64) (header : ArchiveHeader) : Result MerkleProof := do
  checkRange offset.toNat len.toNat header.payloadLen.toNat
  let (first, last) ← blockRange offset.toNat len.toNat header.blockSize.toNat
  let blocks ← mapAll (blockAt payload header.blockSize.toNat) (interval first last)
  let height ← treeHeight header.blockCount.toNat
  let siblings ← collectSiblings blake3 payload hashSection header.blockSize.toNat
    header.blockCount.toNat height first last
  pure {
    offset := offset
    len := len
    blockSize := header.blockSize
    blockCount := header.blockCount
    payloadLen := header.payloadLen
    blocks := blocks
    siblings := siblings
    root := header.root }

end RustBinary.Archive
