import RustBinary.Projections.Accepted
import RustBinary.Projections.Aggregate

/-!
# Completeness of proofs

Over every complete tree the siblings of a set of leaves are enough to get from the leaves to
the root (`aggregateSiblings_combines`), whatever the node hash.  So `prove` succeeds for a
query that selects a field, and `verify` gives back the fields that it selects.
-/

namespace RustBinary.Projections

open Lib Lib.Outcome Lib.HeapTree

/-! ## Trees -/

section Tree

variable {node : Digest → Digest → Digest} {leaves : List Digest} {h : ℕ}

lemma stores_buildTree (hlen : leaves.length = 2 ^ h) :
    Stores (buildTree node leaves) (treeLabel node leaves) h := by
  refine ⟨fun i hi => getElem?_buildTree ?_⟩
  rw [hlen]
  rw [pow_succ] at hi
  omega

/-- The nodes of the leaves at the positions `queried`. -/
def leafNodes (leafCount : ℕ) (queried : Std.TreeSet ℕ) : Std.TreeSet ℕ :=
  Std.TreeSet.ofList (queried.toList.map (leafCount + ·))

lemma mem_leafNodes {leafCount i : ℕ} {queried : Std.TreeSet ℕ} :
    i ∈ leafNodes leafCount queried ↔ ∃ j ∈ queried, leafCount + j = i := by
  rw [leafNodes, Std.TreeSet.mem_ofList, List.contains_iff_mem]
  simp only [List.mem_map, Std.TreeSet.mem_toList]

/-- The nodes of the selected leaves are leaves of the tree. -/
lemma leafNodes_level (hlen : leaves.length = 2 ^ h) {queried : Std.TreeSet ℕ}
    (hlt : ∀ j ∈ queried, j < leaves.length) :
    ∀ i ∈ leafNodes leaves.length queried, i ∈ level h := by
  intro i hi
  obtain ⟨k, hk, rfl⟩ := mem_leafNodes.mp hi
  have := hlt k hk
  refine ⟨by omega, ?_⟩
  rw [pow_succ]
  omega

/-- The siblings of a set of leaves combine the leaves into the root. -/
lemma aggregateSiblings_combines (node : Digest → Digest → Digest) (hlen : leaves.length = 2 ^ h)
    (hh : h < levelRounds) {queried : Std.TreeSet ℕ} {j : ℕ} (hj : j ∈ queried)
    (hlt : ∀ j ∈ queried, j < leaves.length) :
    ∃ siblings map, aggregateSiblings (buildTree node leaves) leaves.length queried =
        .ok siblings ∧
      siblingMap siblings = .ok map ∧ SiblingsUpTo (treeLabel node leaves) h siblings ∧
      ∀ frontier, Labels (treeLabel node leaves) (leafNodes leaves.length queried) frontier →
        combineFrontier node frontier map = .ok (treeLabel node leaves 1) := by
  have hi : leaves.length + j ∈ leafNodes leaves.length queried := mem_leafNodes.mpr ⟨j, hj, rfl⟩
  have hlevel := leafNodes_level hlen hlt
  obtain ⟨siblings, hok, hupto, hcombine⟩ := aggregateLevels_combines
    (isTree_treeLabel node hlen) (stores_buildTree hlen) (Nat.le_refl h) hh hi hlevel
  obtain ⟨map, hmap, hhas⟩ := siblingMap_of_nodup hupto.nodup
  refine ⟨siblings, map, ?_, hmap, hupto, fun frontier hl => ?_⟩
  · rw [aggregateSiblings, if_neg]
    · exact hok
    · rw [Bool.not_eq_true]
      exact Std.TreeSet.isEmpty_eq_false_iff_exists_mem.mpr ⟨j, hj⟩
  · rw [combineFrontier, if_neg]
    · exact hcombine frontier map hl hhas
    · rw [Bool.not_eq_true]
      exact Std.TreeMap.isEmpty_eq_false_iff_exists_mem.mpr
        ⟨_, view_ne_none_iff.mp ((hl.dom _).mpr hi)⟩

/-- The frontier of the leaves at the positions `queried`. -/
def leafMap (leaves : List Digest) (queried : Std.TreeSet ℕ) : DigestMap :=
  Std.TreeMap.ofList
    (queried.toList.map fun j => (leaves.length + j, leaves.getD j zeroDigest))

lemma labels_leafMap {queried : Std.TreeSet ℕ} (hlt : ∀ j ∈ queried, j < leaves.length) :
    Labels (treeLabel node leaves) (leafNodes leaves.length queried) (leafMap leaves queried) := by
  have hnodup : (queried.toList.map fun j => leaves.length + j).Nodup :=
    List.Nodup.map (fun _ _ => Nat.add_left_cancel) ((pairwise_toList queried).imp Nat.ne_of_lt)
  constructor
  · intro i
    rw [Option.ne_none_iff_exists', mem_leafNodes]
    constructor
    · rintro ⟨x, hx⟩
      obtain ⟨j, hj, rfl, -⟩ := (view_ofList hnodup).mp hx
      exact ⟨j, Std.TreeSet.mem_toList.mp hj, rfl⟩
    · rintro ⟨j, hj, rfl⟩
      exact ⟨_, (view_ofList hnodup).mpr ⟨j, Std.TreeSet.mem_toList.mpr hj, rfl, rfl⟩⟩
  · intro i x hx
    obtain ⟨j, hj, rfl, rfl⟩ := (view_ofList hnodup).mp hx
    have hj' := hlt j (Std.TreeSet.mem_toList.mp hj)
    rw [treeLabel_leaf node hj', List.getD_eq_getElem?_getD, List.getElem?_eq_getElem hj']
    rfl

end Tree

/-! ## The leaves of a query -/

/-- The fields of a record that a query selects. -/
def projectFields (query : Projection) (fields : List ParsedField) : List VerifiedField :=
  (fields.filter fun field => query.contains field.fieldId).map
    fun field => ⟨field.fieldId, field.payload⟩

lemma map_selectedLeaves (query : Projection) (k : ℕ) (fields : List ParsedField) :
    (Record.selectedLeaves query k fields).map (fun leaf => ⟨leaf.fieldId, leaf.payload⟩) =
      projectFields query fields := by
  induction fields generalizing k with
  | nil => rfl
  | cons field fields ih =>
      rw [Record.selectedLeaves, projectFields]
      by_cases hq : query.contains field.fieldId
      · rw [if_pos hq, List.filter_cons, if_pos hq, List.map_cons, List.map_cons, ih,
          projectFields]
      · rw [if_neg hq, List.filter_cons, if_neg hq, ih, projectFields]

/-- A leaf is a field at its position. -/
lemma selectedLeaves_spec {query : Projection} {k : ℕ} {fields : List ParsedField}
    (hlen : k + fields.length ≤ 2 ^ 32) :
    ∀ leaf ∈ Record.selectedLeaves query k fields, ∃ j,
      fields[j]? = some ⟨leaf.fieldId, leaf.payload⟩ ∧ leaf.index.toNat = k + j := by
  induction fields generalizing k with
  | nil => nofun
  | cons field fields ih =>
      rw [List.length_cons] at hlen
      have hrest : ∀ leaf ∈ Record.selectedLeaves query (k + 1) fields, ∃ j,
          (field :: fields)[j]? = some ⟨leaf.fieldId, leaf.payload⟩ ∧
            leaf.index.toNat = k + j := by
        intro leaf hleaf
        obtain ⟨j, hj, hindex⟩ := ih (by omega) leaf hleaf
        exact ⟨j + 1, hj, by omega⟩
      rw [Record.selectedLeaves]
      split
      · refine List.forall_mem_cons.mpr ⟨⟨0, rfl, ?_⟩, hrest⟩
        exact UInt32.toNat_ofNat_of_lt' (by rw [UInt32.size]; omega)
      · exact hrest

lemma selectedLeaves_pairwise {query : Projection} {k : ℕ} {fields : List ParsedField}
    (hlen : k + fields.length ≤ 2 ^ 32)
    (hinc : fields.Pairwise fun a b => a.fieldId < b.fieldId) :
    (Record.selectedLeaves query k fields).Pairwise LeafFollows := by
  induction fields generalizing k with
  | nil => exact List.Pairwise.nil
  | cons field fields ih =>
      rw [List.length_cons] at hlen
      obtain ⟨hfield, hinc⟩ := List.pairwise_cons.mp hinc
      have hrest := ih (k := k + 1) (by omega) hinc
      rw [Record.selectedLeaves]
      split
      · refine List.pairwise_cons.mpr ⟨fun leaf hleaf => ?_, hrest⟩
        obtain ⟨j, hj, hindex⟩ := selectedLeaves_spec (by omega) leaf hleaf
        refine ⟨UInt32.lt_iff_toNat_lt.mpr ?_, hfield _ (List.mem_of_getElem? hj)⟩
        rw [UInt32.toNat_ofNat_of_lt' (by rw [UInt32.size]; omega), hindex]
        omega
      · exact hrest

lemma exists_selectedLeaf {query : Projection} {k : ℕ} {fields : List ParsedField}
    {field : ParsedField} (hmem : field ∈ fields) (hq : query.contains field.fieldId) :
    ∃ leaf, leaf ∈ Record.selectedLeaves query k fields := by
  have hne : projectFields query fields ≠ [] := by
    refine List.ne_nil_of_mem (a := ⟨field.fieldId, field.payload⟩) ?_
    exact List.mem_map.mpr ⟨field, List.mem_filter.mpr ⟨hmem, hq⟩, rfl⟩
  rw [← map_selectedLeaves query k fields] at hne
  exact List.exists_mem_of_ne_nil _ fun h => hne (by rw [h]; rfl)

/-! ## `prove` -/

variable {blake3 : List UInt8 → Digest} {record : Record} {query : Projection}

/-- The positions that the query selects. -/
def selectedPositions (query : Projection) (record : Record) : Std.TreeSet ℕ :=
  Std.TreeSet.ofList
    ((Record.selectedLeaves query 0 record.fields).map fun leaf => leaf.index.toNat)

lemma mem_selectedPositions {j : ℕ} : j ∈ selectedPositions query record ↔
    ∃ leaf ∈ Record.selectedLeaves query 0 record.fields, leaf.index.toNat = j := by
  rw [selectedPositions, Std.TreeSet.mem_ofList, List.contains_iff_mem, List.mem_map]

lemma contains_ne_isEmpty {id : FieldId} (h : query.contains id) : query.isEmpty = false := by
  rw [Projection.isEmpty, List.isEmpty_eq_false_iff]
  exact List.ne_nil_of_mem (List.contains_iff_mem.mp h)

/-- The leaves of a record's own proof are canonical. -/
lemma canonicalLeaves_selected (query : Projection) (hc : record.Canonical) :
    CanonicalLeaves record.fields.length (Record.selectedLeaves query 0 record.fields) where
  index_lt leaf hleaf := by
    obtain ⟨j, hj, hindex⟩ := selectedLeaves_spec
      (by rw [Nat.zero_add]; exact hc.length_lt.le) leaf hleaf
    have := (List.getElem?_eq_some_iff.mp hj).1
    omega
  increasing := (selectedLeaves_pairwise
    (by rw [Nat.zero_add]; exact hc.length_lt.le) hc.increasing).isChain

/-- The frontier of the leaves of a record's own proof has the labels of the record's tree. -/
lemma labels_of_leafFrontier (hc : record.Canonical) {frontier : DigestMap}
    (hf : IsLeafFrontier blake3 (leafCount record.fields.length)
      (Record.selectedLeaves query 0 record.fields) frontier) :
    Labels (recordLabel blake3 record.fields)
      (leafNodes (leafCount record.fields.length) (selectedPositions query record)) frontier := by
  constructor
  · intro i
    rw [mem_leafNodes]
    constructor
    · intro hi
      obtain ⟨leaf, hleaf, rfl⟩ := hf.ofLeaf i hi
      exact ⟨_, mem_selectedPositions.mpr ⟨leaf, hleaf, rfl⟩, rfl⟩
    · rintro ⟨j, hj, rfl⟩
      obtain ⟨leaf, hleaf, rfl⟩ := mem_selectedPositions.mp hj
      rw [hf.hash leaf hleaf]
      exact Option.some_ne_none _
  · intro i x hx
    obtain ⟨leaf, hleaf, rfl⟩ := hf.ofLeaf i (by rw [hx]; exact Option.some_ne_none x)
    rw [hf.hash leaf hleaf] at hx
    obtain rfl := Option.some.inj hx
    obtain ⟨j, hj, hindex⟩ := selectedLeaves_spec
      (by rw [Nat.zero_add]; exact hc.length_lt.le) leaf hleaf
    rw [Nat.zero_add] at hindex
    have hlt : j < leafCount record.fields.length :=
      (List.getElem?_eq_some_iff.mp hj).1.trans_le (le_leafCount _)
    rw [hindex]
    rcases recordLabel_leaf blake3 record.fields hlt with ⟨field, hfield, hl⟩ | ⟨hnone, -⟩
    · rw [hj] at hfield
      obtain rfl := Option.some.inj hfield
      exact hl.symm
    · rw [hj] at hnone
      cases hnone

/-- The proof that `prove` makes is accepted. -/
lemma exists_proof (blake3 : List UInt8 → Digest) (hc : record.Canonical)
    (hq : ∃ field ∈ record.fields, query.contains field.fieldId) :
    ∃ proof siblings frontier d, record.prove blake3 query = .ok proof ∧
      SiblingsUpTo (recordLabel blake3 record.fields) d proof.siblings ∧
      proof.schemaVersion = record.schemaVersion ∧
      proof.fieldCount.toNat = record.fields.length ∧
      proof.leaves = Record.selectedLeaves query 0 record.fields ∧
      proof.claimedRoot =
        schemaRoot blake3 record.schemaVersion (recordLabel blake3 record.fields 1) ∧
      Accepted blake3 proof siblings frontier (recordLabel blake3 record.fields 1) := by
  obtain ⟨field, hfield, hselect⟩ := hq
  obtain ⟨h, hh⟩ := exists_leafCount record.fields.length
  have hsize := leafCount_le record.fields.length
  have hlen := hc.length_lt
  have hlength := length_merkleLeaves blake3 record.fields
  obtain ⟨leaf, hleaf⟩ := exists_selectedLeaf (k := 0) hfield hselect
  have hposition : leaf.index.toNat ∈ selectedPositions query record :=
    mem_selectedPositions.mpr ⟨leaf, hleaf, rfl⟩
  have hcanonical := canonicalLeaves_selected query hc
  have hlt : ∀ j ∈ selectedPositions query record,
      j < (merkleLeaves blake3 record.fields).length := by
    intro j hj
    obtain ⟨leaf, hleaf, rfl⟩ := mem_selectedPositions.mp hj
    rw [hlength]
    exact (hcanonical.index_lt leaf hleaf).trans_le (le_leafCount _)
  have hheight : h < levelRounds := by
    have hpow : 2 ^ h < 2 ^ 34 := by
      rw [← hh]
      omega
    exact ((Nat.pow_lt_pow_iff_right (by decide)).mp hpow).trans (by decide)
  obtain ⟨siblings, map, hsiblings, hmap, hupto, hcombine⟩ := aggregateSiblings_combines
    (nodeHash blake3) (hlength.trans hh) hheight hposition hlt
  rw [hlength] at hsiblings hcombine
  have hcount : (UInt32.ofNat record.fields.length).toNat = record.fields.length :=
    UInt32.toNat_ofNat_of_lt' hlen
  have hu64 : leafCount record.fields.length * 2 ≤ u64Max := by
    rw [u64Max]
    omega
  have hbelow : ∀ leaf ∈ Record.selectedLeaves query 0 record.fields,
      leafCount record.fields.length + leaf.index.toNat <
        leafCount record.fields.length * 2 := by
    intro leaf hleaf
    have := hcanonical.index_lt leaf hleaf
    have := le_leafCount record.fields.length
    omega
  obtain ⟨frontier, hfrontier⟩ := exists_leafFrontier hu64 hbelow hcanonical.nodup
    fun leaf _ => view_empty _
  have hlabels := labels_of_leafFrontier hc (isLeafFrontier_of_eq_ok hfrontier)
  refine ⟨⟨record.schemaVersion, UInt32.ofNat record.fields.length,
    Record.selectedLeaves query 0 record.fields, siblings, schemaRoot blake3 record.schemaVersion
      (recordLabel blake3 record.fields 1)⟩, map, frontier, h, ?_, hupto, rfl, hcount, rfl, rfl, ?_⟩
  · have hnonempty : (selectedPositions query record).isEmpty = false :=
      Std.TreeSet.isEmpty_eq_false_iff_exists_mem.mpr ⟨_, hposition⟩
    rw [selectedPositions] at hnonempty hsiblings
    simp only [Record.prove, require_of (contains_ne_isEmpty hselect), require_of hnonempty,
      hsiblings, ok_bind, merkleRoot_eq_recordLabel, pure_eq_ok]
  · constructor
    · rwa [hcount]
    · rwa [hcount]
    · exact hmap
    · rwa [hcount]
    · refine Std.TreeMap.isEmpty_eq_false_iff_exists_mem.mpr ⟨_, view_ne_none_iff.mp
        ((hlabels.dom _).mpr (mem_leafNodes.mpr ⟨_, hposition, rfl⟩))⟩
    · exact hcombine frontier hlabels

lemma pairwise_projectFields (hc : record.Canonical) :
    (projectFields query record.fields).Pairwise fun a b => a.fieldId < b.fieldId :=
  List.pairwise_map.mpr (hc.increasing.filter _)

/-- **Completeness.** For a query that selects a field of a parsed record `prove` succeeds, and
`verify` gives back the fields that the query selects, by increasing identifier.  Below it, for
any node hash, any complete tree and any set of its leaves, `combine_frontier` gets from the
leaves and the siblings of `aggregate_siblings` to the root of `build_tree`. -/
theorem prove_verify :
    (∀ (blake3 : List UInt8 → Digest) (input : Input) (limits : ProjectionLimits)
        (record : Record) (query : Projection),
      Record.parse input limits = .ok record →
      (∃ field ∈ record.fields, query.contains field.fieldId) →
      ∃ proof, record.prove blake3 query = .ok proof ∧
        verify blake3 proof
          (schemaRoot blake3 record.schemaVersion
            (merkleRoot (nodeHash blake3) (merkleLeaves blake3 record.fields)))
          record.schemaVersion = .ok (projectFields query record.fields) ∧
        (projectFields query record.fields).Pairwise fun a b => a.fieldId < b.fieldId) ∧
    ∀ (node : Digest → Digest → Digest) (leaves : List Digest) (h : ℕ)
        (queried : Std.TreeSet ℕ),
      leaves.length = 2 ^ h → leaves.length * 2 ≤ u64Max → queried.isEmpty = false →
      (∀ j ∈ queried, j < leaves.length) →
      ∃ siblings map root,
        aggregateSiblings (buildTree node leaves) leaves.length queried = .ok siblings ∧
        siblingMap siblings = .ok map ∧ (buildTree node leaves)[1]? = some root ∧
        combineFrontier node (leafMap leaves queried) map = .ok root := by
  constructor
  · intro blake3 input limits record query hparse hq
    have hc := canonical_of_parse hparse
    obtain ⟨proof, siblings, frontier, -, hprove, -, hversion, -, hleaves, hclaimed, haccepted⟩ :=
      exists_proof blake3 hc hq
    refine ⟨proof, hprove, ?_, pairwise_projectFields hc⟩
    rw [merkleRoot_eq_recordLabel, verify_eq_ok_iff]
    refine ⟨hversion, hclaimed, ?_, siblings, frontier, _, haccepted, rfl⟩
    rw [verifiedFields, hleaves, map_selectedLeaves]
  · intro node leaves h queried hlen hsize hne hlt
    obtain ⟨j, hj⟩ := Std.TreeSet.isEmpty_eq_false_iff_exists_mem.mp hne
    have hheight : h < levelRounds := by
      have hpow : 2 ^ h < 2 ^ 64 := by
        rw [u64Max] at hsize
        omega
      exact ((Nat.pow_lt_pow_iff_right (by decide)).mp hpow).trans (by decide)
    obtain ⟨siblings, map, hsiblings, hmap, -, hcombine⟩ :=
      aggregateSiblings_combines node hlen hheight hj hlt
    refine ⟨siblings, map, treeLabel node leaves 1, hsiblings, hmap, ?_,
      hcombine _ (labels_leafMap hlt)⟩
    exact getElem?_buildTree (by have := hlt j hj; omega)

theorem prove_verify_sample :
    (∃ proof, sampleRecord.prove sampleHash (Projection.new [2]) = .ok proof ∧
      verify sampleHash proof
        (schemaRoot sampleHash 7
          (merkleRoot (nodeHash sampleHash) (merkleLeaves sampleHash sampleFields)))
        7 = .ok [⟨2, [0x62]⟩]) ∧
    ∃ siblings map root,
      aggregateSiblings (buildTree (nodeHash sampleHash) [sampleLeaf₁, sampleLeaf₂]) 2
        (Std.TreeSet.ofList [1]) = .ok siblings ∧
      siblingMap siblings = .ok map ∧
      (buildTree (nodeHash sampleHash) [sampleLeaf₁, sampleLeaf₂])[1]? = some root ∧
      combineFrontier (nodeHash sampleHash)
        (leafMap [sampleLeaf₁, sampleLeaf₂] (Std.TreeSet.ofList [1])) map = .ok root := by
  constructor
  · obtain ⟨proof, hprove, hverify, -⟩ := prove_verify.1 sampleHash sampleInput
      ProjectionLimits.new sampleRecord (Projection.new [2]) sample_parse (by decide)
    exact ⟨proof, hprove, hverify⟩
  · refine prove_verify.2 (nodeHash sampleHash) [sampleLeaf₁, sampleLeaf₂] 1
      (Std.TreeSet.ofList [1]) rfl (by decide) (by decide) fun j hj => ?_
    rw [Std.TreeSet.mem_ofList, List.contains_iff_mem, List.mem_singleton] at hj
    rw [hj]
    decide

end RustBinary.Projections
