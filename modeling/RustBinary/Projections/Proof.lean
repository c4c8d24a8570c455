import RustBinary.Hash.Blake3
import RustBinary.Projections.Merkle

/-!
# Proving and verifying projections

`verify_root` recomputes the root of a record, `prove` extracts a proof for a query and
`verify` checks a proof against a trusted root, without the record.  The inputs that the two
checks hash are spelled out beside them: they are what an assumption about the hash has to
speak of.
-/

namespace RustBinary.Projections

open Lib Lib.Outcome

variable (blake3 : List UInt8 → Digest)

/-! ## Records -/

namespace Record

/-- `Record::verify_root`. -/
def verifyRoot (record : Record) : Result Unit :=
  let merkle := merkleRoot (nodeHash blake3) (merkleLeaves blake3 record.fields)
  require (schemaRoot blake3 record.schemaVersion merkle = record.root) .rootMismatch

/-- The fields selected by the query, with their positions from `index` on. -/
def selectedLeaves (query : Projection) : ℕ → List ParsedField → List ProofLeaf
  | _, [] => []
  | index, field :: fields =>
      if query.contains field.fieldId then
        ⟨UInt32.ofNat index, field.fieldId, field.payload⟩ ::
          selectedLeaves query (index + 1) fields
      else selectedLeaves query (index + 1) fields

/-- `Record::prove`. -/
def prove (record : Record) (query : Projection) : Result ProjectionProof := do
  require (query.isEmpty = false) .invalidQuery
  let leafCount := leafCount record.fields.length
  let leaves := merkleLeaves blake3 record.fields
  let tree := buildTree (nodeHash blake3) leaves
  let proofLeaves := selectedLeaves query 0 record.fields
  let selected := Std.TreeSet.ofList (proofLeaves.map fun leaf => leaf.index.toNat)
  require (selected.isEmpty = false) .invalidQuery
  let siblings ← aggregateSiblings tree leafCount selected
  let merkle := merkleRoot (nodeHash blake3) leaves
  pure
    { schemaVersion := record.schemaVersion
      fieldCount := UInt32.ofNat record.fields.length
      leaves := proofLeaves
      siblings := siblings
      claimedRoot := schemaRoot blake3 record.schemaVersion merkle }

end Record

/-- `prove`: parses and proves in one step. -/
def prove (record : Input) (query : Projection) (limits : ProjectionLimits) :
    Result ProjectionProof := do
  let parsed ← Record.parse record limits
  parsed.prove blake3 query

/-! ## Verification -/

/-- A field whose authenticity and value were verified against the anchor. -/
structure VerifiedField where
  fieldId : FieldId
  payload : List UInt8
deriving DecidableEq, Repr

/-- The canonicality of the leaves of a proof, after a leaf at `prev`: increasing positions
below `fieldCount`, and increasing identifiers. -/
def checkLeaves (fieldCount : ℕ) : Option ProofLeaf → List ProofLeaf → Result Unit
  | _, [] => pure ()
  | prev, leaf :: leaves => do
      require (leaf.index.toNat < fieldCount) .treeGeometry
      require (follows (prev.map ProofLeaf.index) leaf.index) .nonCanonicalOrder
      require (follows (prev.map ProofLeaf.fieldId) leaf.fieldId) .nonCanonicalOrder
      checkLeaves fieldCount (some leaf) leaves

/-- The frontier of the leaves, added to `frontier`. -/
def leafFrontier (leafCount treeSize : ℕ) : List ProofLeaf → DigestMap → Result DigestMap
  | [], frontier => pure frontier
  | leaf :: leaves, frontier => do
      let node ← okOr (checkedAdd leafCount leaf.index.toNat) .treeGeometry
      require (node < treeSize) .treeGeometry
      require (frontier.contains node = false) .treeGeometry
      leafFrontier leafCount treeSize leaves
        (frontier.insert node (leafHash blake3 leaf.fieldId leaf.payload))

/-- The map of the siblings of a proof, which must have distinct indices. -/
def siblingMap (siblings : List ProofSibling) : Result DigestMap := do
  let map : DigestMap := Std.TreeMap.ofList (siblings.map fun s => (s.index, s.hash))
  require (map.size = siblings.length) .incompleteProof
  pure map

/-- `recompute_proof_root`. -/
def recomputeProofRoot (proof : ProjectionProof) : Result Digest := do
  let fieldCount := proof.fieldCount.toNat
  let leafCount := leafCount fieldCount
  require (leafCount * 2 ≤ u64Max) .treeGeometry
  checkLeaves fieldCount none proof.leaves
  let siblings ← siblingMap proof.siblings
  let frontier ← leafFrontier blake3 leafCount (leafCount * 2) proof.leaves ∅
  require (frontier.isEmpty = false) .incompleteProof
  let merkle ← combineFrontier (nodeHash blake3) frontier siblings
  pure (schemaRoot blake3 proof.schemaVersion merkle)

/-- The fields of a proof. -/
def verifiedFields (proof : ProjectionProof) : List VerifiedField :=
  proof.leaves.map fun leaf => ⟨leaf.fieldId, leaf.payload⟩

/-- `verify`. -/
def verify (proof : ProjectionProof) (anchor : Digest) (expectedSchemaVersion : UInt32) :
    Result (List VerifiedField) := do
  require (proof.schemaVersion = expectedSchemaVersion) .rootMismatch
  let recomputed ← recomputeProofRoot blake3 proof
  require (recomputed = proof.claimedRoot ∧ recomputed = anchor) .rootMismatch
  pure (verifiedFields proof)

/-! ## What is hashed -/

/-- The inputs of the node hashes of a tree, from node `1` to node `k`. -/
def treeInputs (tree : List Digest) (k : ℕ) : List (List UInt8) :=
  (List.range' 1 k).map fun p =>
    nodeInput (tree.getD (2 * p) zeroDigest) (tree.getD (2 * p + 1) zeroDigest)

/-- The inputs that `verify_root` hashes. -/
def Record.hashInputs (record : Record) : List (List UInt8) :=
  let leaves := merkleLeaves blake3 record.fields
  let tree := buildTree (nodeHash blake3) leaves
  record.fields.map (fun f => leafInput f.fieldId f.payload) ++
    treeInputs tree (leaves.length - 1) ++
    [schemaInput record.schemaVersion (merkleRoot (nodeHash blake3) leaves)]

/-- The inputs that the loop of `combine_frontier` hashes. -/
def combineInputs (siblings : DigestMap) : ℕ → DigestMap → List (List UInt8)
  | 0, _ => []
  | fuel + 1, frontier =>
      if frontier.size = 1 ∧ frontier.contains 1 then []
      else
        match parents frontier siblings frontier.keys with
        | .ok ps =>
            ps.map (fun p => nodeInput p.left p.right) ++
              combineInputs siblings fuel (nextFrontier (nodeHash blake3) ps)
        | _ => []

/-- The inputs that `verify` hashes for a proof that it accepts. -/
def ProjectionProof.hashInputs (proof : ProjectionProof) : List (List UInt8) :=
  let leafCount := leafCount proof.fieldCount.toNat
  proof.leaves.map (fun leaf => leafInput leaf.fieldId leaf.payload) ++
    match siblingMap proof.siblings,
      leafFrontier blake3 leafCount (leafCount * 2) proof.leaves ∅ with
    | .ok siblings, .ok frontier =>
        combineInputs blake3 siblings levelRounds frontier ++
          (match combineFrontier (nodeHash blake3) frontier siblings with
          | .ok merkle => [schemaInput proof.schemaVersion merkle]
          | _ => [])
    | _, _ => []

/-- The hash has no collision on `inputs`, and none of them hashes to the padding. -/
structure CollisionFree (inputs : List (List UInt8)) : Prop where
  injective : ∀ x ∈ inputs, ∀ y ∈ inputs, blake3 x = blake3 y → x = y
  nonzero : ∀ x ∈ inputs, blake3 x ≠ zeroDigest

/-! ## A record with two fields -/

def sampleFields : List ParsedField := [⟨1, [0x61]⟩, ⟨2, [0x62]⟩]

/-- The hashes of the two leaves, of the node above them and of the root. -/
def sampleLeaf₁ : Digest :=
  #v[19, 135, 91, 75, 252, 61, 136, 245, 213, 182, 49, 162, 10, 19, 75, 81, 47, 11, 159, 11, 132,
    190, 249, 244, 99, 110, 130, 219, 95, 190, 195, 143]

def sampleLeaf₂ : Digest :=
  #v[236, 194, 86, 190, 26, 184, 88, 46, 60, 11, 159, 166, 140, 15, 215, 145, 147, 200, 213, 151,
    177, 75, 73, 250, 20, 156, 142, 42, 52, 121, 241, 112]

def sampleMerkle : Digest :=
  #v[149, 77, 127, 81, 148, 219, 183, 41, 42, 112, 152, 112, 114, 36, 107, 189, 83, 89, 191, 20,
    162, 156, 87, 0, 109, 6, 7, 127, 112, 41, 247, 79]

def sampleRoot : Digest :=
  #v[152, 211, 13, 154, 33, 193, 225, 142, 167, 139, 25, 4, 151, 216, 7, 247, 166, 37, 203, 134,
    122, 154, 252, 239, 86, 85, 194, 196, 232, 138, 108, 221]

/-- The hash on the inputs of the record. -/
def sampleHash (input : List UInt8) : Digest :=
  if input = leafInput 1 [0x61] then sampleLeaf₁
  else if input = leafInput 2 [0x62] then sampleLeaf₂
  else if input = nodeInput sampleLeaf₁ sampleLeaf₂ then sampleMerkle
  else if input = schemaInput 7 sampleMerkle then sampleRoot
  else zeroDigest

set_option maxRecDepth 100000 in
example : ∀ input ∈ [leafInput 1 [0x61], leafInput 2 [0x62], nodeInput sampleLeaf₁ sampleLeaf₂,
    schemaInput 7 sampleMerkle], sampleHash input = Hash.digest input := by
  decide +kernel

def sampleRecord : Record := ⟨7, sampleFields, sampleRoot⟩

/-- The proof of the first field. -/
def sampleProof : ProjectionProof where
  schemaVersion := 7
  fieldCount := 2
  leaves := [⟨0, 1, [0x61]⟩]
  siblings := [⟨3, sampleLeaf₂⟩]
  claimedRoot := sampleRoot

/-- The record with two fields, as bytes. -/
def sampleInput : Input where
  bytes := magic ++ [1, 0, 1, 0, 2, 0, 0, 0, 7, 0, 0, 0] ++
    [1, 0, 0, 0, 1, 0, 0, 0, 0x61] ++ [2, 0, 0, 0, 1, 0, 0, 0, 0x62] ++ sampleRoot.toList
  length_le := by decide

lemma sample_parse : Record.parse sampleInput ProjectionLimits.new = .ok sampleRecord := by
  decide +kernel

end RustBinary.Projections
