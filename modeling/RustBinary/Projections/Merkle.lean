import RustBinary.Projections.Record
import Std.Data.TreeMap
import Std.Data.TreeSet

/-!
# The Merkle tree over the fields

Leaf hashes, the complete tree over them in heap layout, its root, the siblings that a proof
needs and the reconstruction of the root from leaves and siblings.  The hash is a parameter:
`blake3` gives the digest of a byte string, and the functions over the tree take the node
hash itself.

`BTreeMap` and `BTreeSet` are the ordered maps and sets of the standard library.  The loops
over the levels halve every node of the frontier, so they are given one round for each bit of
a `usize` and a few more: a frontier that is not the root by then never becomes it.
-/

namespace RustBinary.Projections

open Lib Lib.Outcome

/-! ## Hash inputs -/

def leafDomain : UInt8 := 0x00

def schemaDomain : UInt8 := 0x01

def nodeDomain : UInt8 := 0x02

/-- What `leaf_hash` hashes; a length that does not fit 32 bits is written as the largest. -/
def leafInput (fieldId : FieldId) (payload : List UInt8) : List UInt8 :=
  leafDomain :: (leBytes 4 fieldId.toNat ++
    (leBytes 4 (min payload.length (2 ^ 32 - 1)) ++ payload))

/-- What `node_hash` hashes. -/
def nodeInput (left right : Digest) : List UInt8 := nodeDomain :: (left.toList ++ right.toList)

/-- What `schema_root` hashes. -/
def schemaInput (schemaVersion : UInt32) (merkle : Digest) : List UInt8 :=
  schemaDomain :: (leBytes 4 schemaVersion.toNat ++ merkle.toList)

section Hashes

variable (blake3 : List UInt8 → Digest)

def leafHash (fieldId : FieldId) (payload : List UInt8) : Digest :=
  blake3 (leafInput fieldId payload)

def nodeHash (left right : Digest) : Digest := blake3 (nodeInput left right)

def schemaRoot (schemaVersion : UInt32) (merkle : Digest) : Digest :=
  blake3 (schemaInput schemaVersion merkle)

end Hashes

/-! ## Leaves -/

/-- `next_power_of_two`. -/
def nextPowerOfTwo (n : ℕ) : ℕ := if n ≤ 1 then 1 else 2 ^ (Nat.log2 (n - 1) + 1)

/-- Number of Merkle leaves for `fieldCount` fields. -/
def leafCount (fieldCount : ℕ) : ℕ := if fieldCount = 0 then 1 else nextPowerOfTwo fieldCount

/-- The leaf hashes of a field list, padded with zeros. -/
def merkleLeaves (blake3 : List UInt8 → Digest) (fields : List ParsedField) : List Digest :=
  fields.map (fun f => leafHash blake3 f.fieldId f.payload) ++
    List.replicate (leafCount fields.length - fields.length) zeroDigest

/-! ## The tree -/

section Tree

variable (node : Digest → Digest → Digest)

/-- `for i in (1..=k).rev()`: the labels of the nodes up to `k`, from those above. -/
def fillTree : ℕ → List Digest → List Digest
  | 0, tree => tree
  | k + 1, tree =>
      fillTree k (tree.set (k + 1)
        (node (tree.getD (2 * (k + 1)) zeroDigest) (tree.getD (2 * (k + 1) + 1) zeroDigest)))

/-- `build_tree`: node `0` is unused, the leaves are the second half. -/
def buildTree (leaves : List Digest) : List Digest :=
  fillTree node (leaves.length - 1) (List.replicate leaves.length zeroDigest ++ leaves)

/-- `chunks_exact(2)`, hashed. -/
def hashPairs : List Digest → List Digest
  | left :: right :: rest => node left right :: hashPairs rest
  | _ => []

/-- The loop of `merkle_root`: the levels up to the one with a single digest. -/
def reduceLevels : ℕ → List Digest → List Digest
  | 0, level => level
  | fuel + 1, level => if 1 < level.length then reduceLevels fuel (hashPairs node level) else level

/-- `merkle_root`; there is always at least one leaf. -/
def merkleRoot (leaves : List Digest) : Digest :=
  (reduceLevels node leaves.length leaves).headD zeroDigest

end Tree

/-! ## Proofs -/

/-- One field of a proof, with its position in the record. -/
structure ProofLeaf where
  index : UInt32
  fieldId : FieldId
  payload : List UInt8
deriving DecidableEq, Repr

/-- One sibling hash, with its node in the heap. -/
structure ProofSibling where
  index : ℕ
  hash : Digest
deriving DecidableEq, Repr

/-- A projection proof, honest or not. -/
structure ProjectionProof where
  schemaVersion : UInt32
  fieldCount : UInt32
  leaves : List ProofLeaf
  siblings : List ProofSibling
  claimedRoot : Digest
deriving DecidableEq, Repr

abbrev DigestMap : Type := Std.TreeMap ℕ Digest

/-- Rounds for the loops over the levels. -/
def levelRounds : ℕ := 67

/-- The siblings of one level: those of the frontier nodes that the frontier lacks. -/
def missingSiblings (tree : List Digest) (frontier : Std.TreeSet ℕ) :
    List ℕ → Result (List ProofSibling)
  | [] => pure []
  | i :: nodes =>
      if frontier.contains (i ^^^ 1) then missingSiblings tree frontier nodes
      else do
        let hash ← orPanic tree[i ^^^ 1]?
        let rest ← missingSiblings tree frontier nodes
        pure (⟨i ^^^ 1, hash⟩ :: rest)

/-- The loop of `aggregate_siblings`. -/
def aggregateLevels (tree : List Digest) : ℕ → Std.TreeSet ℕ → Result (List ProofSibling)
  | 0, _ => .diverge
  | fuel + 1, frontier =>
      if frontier.size = 1 ∧ frontier.contains 1 then pure []
      else do
        let siblings ← missingSiblings tree frontier frontier.toList
        let rest ← aggregateLevels tree fuel (Std.TreeSet.ofList (frontier.toList.map (· / 2)))
        pure (siblings ++ rest)

/-- `aggregate_siblings`, for the leaf positions `queried`. -/
def aggregateSiblings (tree : List Digest) (leafCount : ℕ) (queried : Std.TreeSet ℕ) :
    Result (List ProofSibling) :=
  if queried.isEmpty then pure []
  else aggregateLevels tree levelRounds
    (Std.TreeSet.ofList (queried.toList.map (leafCount + ·)))

/-! ## Reconstruction -/

/-- A node of the next frontier with the labels of its two children. -/
structure Parent where
  index : ℕ
  left : Digest
  right : Digest

/-- The inner loop of `combine_frontier`, over the nodes of the frontier that are to come. -/
def parents (frontier siblings : DigestMap) : List ℕ → Result (List Parent)
  | [] => pure []
  | i :: nodes =>
      match frontier[i ^^^ 1]? with
      | some right => do
          -- `i` is the left child; its sibling comes next and is passed over
          let left ← orPanic frontier[i]?
          let rest ←
            (match nodes with
            | [] => pure []
            | _ :: nodes => parents frontier siblings nodes)
          pure (⟨i / 2, left, right⟩ :: rest)
      | none => do
          let sibling ← okOr siblings[i ^^^ 1]? .incompleteProof
          let hash ← orPanic frontier[i]?
          let rest ← parents frontier siblings nodes
          pure ((if i % 2 = 0 then ⟨i / 2, hash, sibling⟩ else ⟨i / 2, sibling, hash⟩) :: rest)

section Combine

variable (node : Digest → Digest → Digest)

/-- The next frontier. -/
def nextFrontier (ps : List Parent) : DigestMap :=
  Std.TreeMap.ofList (ps.map fun p => (p.index, node p.left p.right))

/-- The outer loop of `combine_frontier`. -/
def combineLevels (siblings : DigestMap) : ℕ → DigestMap → Result Digest
  | 0, _ => .diverge
  | fuel + 1, frontier =>
      if frontier.size = 1 ∧ frontier.contains 1 then
        okOr (frontier.toList.map Prod.snd).head? .incompleteProof
      else do
        let ps ← parents frontier siblings frontier.keys
        combineLevels siblings fuel (nextFrontier node ps)

/-- `combine_frontier`. -/
def combineFrontier (frontier siblings : DigestMap) : Result Digest :=
  if frontier.isEmpty then .err .incompleteProof
  else combineLevels node siblings levelRounds frontier

end Combine

end RustBinary.Projections
