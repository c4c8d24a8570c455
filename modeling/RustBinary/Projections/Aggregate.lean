import RustBinary.Projections.Frontier
import RustBinary.Projections.Proof

/-!
# The siblings of a query

`aggregate_siblings` goes up the tree with the set of nodes that `combine_frontier` will have
labels for, and records the siblings that are not in it.  So whatever map has these siblings,
`combine_frontier` gets from the labels of the nodes to the label of the root
(`aggregateLevels_combines`).
-/

namespace RustBinary.Projections

open Lib Lib.Outcome Lib.HeapTree

variable {node : Digest → Digest → Digest} {tree : List Digest} {T : ℕ → Digest} {h : ℕ}

/-! ## Ordered sets -/

lemma pairwise_toList (nodes : Std.TreeSet ℕ) : nodes.toList.Pairwise (· < ·) :=
  Std.TreeSet.ordered_toList.imp fun h => Nat.compare_eq_lt.mp h

/-- The nodes above the nodes of a set. -/
def aboveNodes (nodes : Std.TreeSet ℕ) : Std.TreeSet ℕ :=
  Std.TreeSet.ofList (nodes.toList.map (· / 2))

lemma mem_aboveNodes {nodes : Std.TreeSet ℕ} {p : ℕ} :
    p ∈ aboveNodes nodes ↔ ∃ i ∈ nodes, i / 2 = p := by
  rw [aboveNodes, Std.TreeSet.mem_ofList, List.contains_iff_mem]
  simp only [List.mem_map, Std.TreeSet.mem_toList]

/-- At depth `0` the set of nodes is the root alone. -/
lemma nodes_stop_of_level_zero {nodes : Std.TreeSet ℕ} {i : ℕ} (hlevel : ∀ i ∈ nodes, i ∈ level 0)
    (hi : i ∈ nodes) : nodes.size = 1 ∧ nodes.contains 1 := by
  obtain rfl := mem_level_zero.mp (hlevel i hi)
  have hlist : nodes.toList = [1] :=
    eq_singleton_one (pairwise_toList nodes) (Std.TreeSet.mem_toList.mpr hi) fun k hk =>
      mem_level_zero.mp (hlevel k (Std.TreeSet.mem_toList.mp hk))
  refine ⟨?_, Std.TreeSet.contains_iff_mem.mpr hi⟩
  rw [← Std.TreeSet.length_toList, hlist]
  rfl

lemma not_nodes_stop_of_level_succ {nodes : Std.TreeSet ℕ} {d : ℕ}
    (hlevel : ∀ i ∈ nodes, i ∈ level (d + 1)) : ¬ (nodes.size = 1 ∧ nodes.contains 1) := by
  rintro ⟨-, hone⟩
  exact one_notMem_level (hlevel 1 (Std.TreeSet.contains_iff_mem.mp hone))

/-! ## The siblings of one level -/

/-- The tree as a list has the labels `T` of a tree of height `h`. -/
structure Stores (tree : List Digest) (T : ℕ → Digest) (h : ℕ) : Prop where
  getElem : ∀ i < 2 ^ (h + 1), tree[i]? = some (T i)

lemma Stores.sibling (hs : Stores tree T h) {d i : ℕ} (hd : d < h) (hi : i ∈ level (d + 1)) :
    tree[i ^^^ 1]? = some (T (i ^^^ 1)) :=
  hs.getElem _ (lt_of_mem_level (xor_one_mem_level hi) (by omega))

/-- The sibling of node `i`, with its label. -/
def siblingOf (T : ℕ → Digest) (i : ℕ) : ProofSibling := ⟨i ^^^ 1, T (i ^^^ 1)⟩

/-- The nodes among `pending` whose sibling is not in `frontier`. -/
def unpaired (frontier : Std.TreeSet ℕ) (pending : List ℕ) : List ℕ :=
  pending.filter fun i => (i ^^^ 1) ∉ frontier

lemma mem_unpaired {frontier : Std.TreeSet ℕ} {pending : List ℕ} {i : ℕ} :
    i ∈ unpaired frontier pending ↔ i ∈ pending ∧ (i ^^^ 1) ∉ frontier := by
  rw [unpaired, List.mem_filter, decide_eq_true_iff]

/-- The siblings of the nodes `pending` that are not in `frontier`. -/
lemma missingSiblings_eq (hs : Stores tree T h) {d : ℕ} (hd : d < h) (frontier : Std.TreeSet ℕ)
    {pending : List ℕ} (hlevel : ∀ i ∈ pending, i ∈ level (d + 1)) :
    missingSiblings tree frontier pending =
      .ok ((unpaired frontier pending).map (siblingOf T)) := by
  induction pending with
  | nil => rfl
  | cons i pending ih =>
      obtain ⟨hi, hlevel⟩ := List.forall_mem_cons.mp hlevel
      have ih := ih hlevel
      rw [unpaired] at ih
      rw [missingSiblings, unpaired]
      by_cases hsib : (i ^^^ 1) ∈ frontier
      · rw [if_pos (Std.TreeSet.contains_iff_mem.mpr hsib), ih,
          List.filter_cons_of_neg (by simpa using hsib)]
      · rw [if_neg fun hc => hsib (Std.TreeSet.contains_iff_mem.mp hc), hs.sibling hd hi, ih,
          List.filter_cons_of_pos (by simpa using hsib)]
        rfl

/-- What a list of siblings has to be for `combine_frontier` to be able to use it. -/
structure SiblingsUpTo (T : ℕ → Digest) (d : ℕ) (siblings : List ProofSibling) : Prop where
  hash : ∀ s ∈ siblings, s.hash = T s.index
  level : ∀ s ∈ siblings, ∃ e < d, s.index ∈ level (e + 1)
  nodup : (siblings.map ProofSibling.index).Nodup

lemma siblingsUpTo_nil (T : ℕ → Digest) (d : ℕ) : SiblingsUpTo T d [] :=
  ⟨nofun, nofun, List.nodup_nil⟩

/-- The siblings of a level in front of those of the levels above. -/
lemma SiblingsUpTo.cons_level {d : ℕ} {rest : List ProofSibling} (hrest : SiblingsUpTo T d rest)
    {nodes : List ℕ} (hnodup : nodes.Nodup) (hlevel : ∀ i ∈ nodes, i ∈ HeapTree.level (d + 1)) :
    SiblingsUpTo T (d + 1) (nodes.map (siblingOf T) ++ rest) where
  hash s hs := by
    rcases List.mem_append.mp hs with hs | hs
    · obtain ⟨i, -, rfl⟩ := List.mem_map.mp hs
      rfl
    · exact hrest.hash s hs
  level s hs := by
    rcases List.mem_append.mp hs with hs | hs
    · obtain ⟨i, hi, rfl⟩ := List.mem_map.mp hs
      exact ⟨d, Nat.lt_succ_self d, xor_one_mem_level (hlevel i hi)⟩
    · obtain ⟨e, he, hmem⟩ := hrest.level s hs
      exact ⟨e, he.trans (Nat.lt_succ_self d), hmem⟩
  nodup := by
    rw [List.map_append, List.map_map]
    refine List.nodup_append.mpr ⟨?_, hrest.nodup, ?_⟩
    · refine hnodup.map fun i j hij => ?_
      have hxor : i ^^^ 1 = j ^^^ 1 := hij
      rw [← xor_one_xor_one i, hxor, xor_one_xor_one]
    · intro a ha b hb heq
      obtain ⟨i, hi, rfl⟩ := List.mem_map.mp ha
      obtain ⟨s, hs, rfl⟩ := List.mem_map.mp hb
      obtain ⟨e, he, hmem⟩ := hrest.level s hs
      have hdepth := level_inj (xor_one_mem_level (hlevel i hi)) (heq ▸ hmem)
      omega

/-! ## All levels -/

/-- The map has the siblings of the list. -/
def HasSiblings (map : DigestMap) (siblings : List ProofSibling) : Prop :=
  ∀ s ∈ siblings, view map s.index = some s.hash

/-- The frontier has the labels of `T` at `nodes` and nothing else. -/
structure Labels (T : ℕ → Digest) (nodes : Std.TreeSet ℕ) (frontier : DigestMap) : Prop where
  dom : ∀ i, view frontier i ≠ none ↔ i ∈ nodes
  agrees : Agrees (view frontier) T

/-- One round of `combine_frontier` over the siblings of the level. -/
lemma Labels.round {nodes : Std.TreeSet ℕ} {frontier : DigestMap} (hl : Labels T nodes frontier)
    (hT : IsTree node h T) {d : ℕ} (hd : d < h) (hlevel : ∀ i ∈ nodes, i ∈ level (d + 1))
    {map : DigestMap}
    (hmap : ∀ i ∈ nodes, (i ^^^ 1) ∉ nodes → view map (i ^^^ 1) = some (T (i ^^^ 1))) :
    ∃ ps, parents frontier map frontier.keys = .ok ps ∧
      Labels T (aboveNodes nodes) (nextFrontier node ps) := by
  have hlabel : ∀ i ∈ nodes, label (view frontier) (view map) (i ^^^ 1) ≠ none := by
    intro i hi
    by_cases hsib : (i ^^^ 1) ∈ nodes
    · rw [label_of_ne ((hl.dom _).mpr hsib)]
      exact (hl.dom _).mpr hsib
    · have hnone : view frontier (i ^^^ 1) = none := by
        by_contra hne
        exact hsib ((hl.dom _).mp hne)
      rw [label_of_eq_none hnone, hmap i hi hsib]
      exact Option.some_ne_none _
  have hcovers : Covers (view frontier) (view map) := fun i hi => hlabel i ((hl.dom i).mp hi)
  have hF : Layer (d + 1) (view frontier) := fun i hi => hlevel i ((hl.dom i).mp hi)
  obtain ⟨ps, hps, hparents⟩ := parents_of_covers hcovers (remaining_keys frontier)
  have habove := hparents.above node
  refine ⟨ps, hps, fun p => ?_, above_agrees hT hd hF hl.agrees ?_ habove⟩
  · rw [habove.ne_none_iff hcovers, mem_aboveNodes]
    exact exists_congr fun i => and_congr_left' (hl.dom i)
  · intro i x hnone hsib hx
    have hi : (i ^^^ 1) ∈ nodes := (hl.dom _).mp hsib
    have hview := hmap (i ^^^ 1) hi fun hmem => (hl.dom _).mpr hmem (by rwa [xor_one_xor_one])
    rw [xor_one_xor_one, hx] at hview
    exact Option.some.inj hview

lemma aboveNodes_level {nodes : Std.TreeSet ℕ} {d : ℕ} (hlevel : ∀ i ∈ nodes, i ∈ level (d + 1)) :
    ∀ p ∈ aboveNodes nodes, p ∈ level d := by
  intro p hp
  obtain ⟨j, hj, rfl⟩ := mem_aboveNodes.mp hp
  exact mem_level_succ.mp (hlevel j hj)

/-- One round of `aggregate_siblings`: it adds the siblings of a level to those that the rounds
above find. -/
lemma aggregateLevels_succ (hs : Stores tree T h) {d : ℕ} (hd : d < h) {nodes : Std.TreeSet ℕ}
    (hlevel : ∀ i ∈ nodes, i ∈ level (d + 1)) {fuel : ℕ} {rest : List ProofSibling}
    (hrest : aggregateLevels tree fuel (aboveNodes nodes) = .ok rest)
    (hupto : SiblingsUpTo T d rest) :
    aggregateLevels tree (fuel + 1) nodes
        = .ok ((unpaired nodes nodes.toList).map (siblingOf T) ++ rest) ∧
      SiblingsUpTo T (d + 1) ((unpaired nodes nodes.toList).map (siblingOf T) ++ rest) := by
  have hlist : ∀ j ∈ nodes.toList, j ∈ level (d + 1) := fun j hj =>
    hlevel j (Std.TreeSet.mem_toList.mp hj)
  refine ⟨?_, hupto.cons_level ?_ fun j hj => hlist j (mem_unpaired.mp hj).1⟩
  · rw [aggregateLevels, if_neg (not_nodes_stop_of_level_succ hlevel),
      missingSiblings_eq hs hd nodes hlist, ok_bind, ← aboveNodes, hrest]
    rfl
  · exact ((pairwise_toList nodes).imp Nat.ne_of_lt).filter _

/-- What a map with the siblings of a level has for the nodes of the level. -/
lemma HasSiblings.unpaired {map : DigestMap} {nodes : Std.TreeSet ℕ}
    (h : HasSiblings map ((unpaired nodes nodes.toList).map (siblingOf T))) :
    ∀ j ∈ nodes, (j ^^^ 1) ∉ nodes → view map (j ^^^ 1) = some (T (j ^^^ 1)) := by
  intro j hj hsib
  have hmem : j ∈ Projections.unpaired nodes nodes.toList :=
    mem_unpaired.mpr ⟨Std.TreeSet.mem_toList.mpr hj, hsib⟩
  exact h (siblingOf T j) (List.mem_map.mpr ⟨j, hmem, rfl⟩)

/-- The loops of `aggregate_siblings` and `combine_frontier`, from depth `d`: with a round for
each level the first ends, and the second gets to the root with whatever map has the siblings
that the first has found. -/
lemma aggregateLevels_combines (hT : IsTree node h T) (hs : Stores tree T h) {d : ℕ} (hd : d ≤ h)
    {fuel : ℕ} (hfuel : d < fuel) {nodes : Std.TreeSet ℕ} {i : ℕ} (hi : i ∈ nodes)
    (hlevel : ∀ i ∈ nodes, i ∈ level d) :
    ∃ siblings, aggregateLevels tree fuel nodes = .ok siblings ∧ SiblingsUpTo T d siblings ∧
      ∀ frontier map, Labels T nodes frontier → HasSiblings map siblings →
        combineLevels node map fuel frontier = .ok (T 1) := by
  induction d generalizing fuel nodes i with
  | zero =>
      obtain ⟨fuel, rfl⟩ := Nat.exists_eq_succ_of_ne_zero (Nat.ne_of_gt hfuel)
      obtain ⟨hstop, hone⟩ := nodes_stop_of_level_zero hlevel hi
      refine ⟨[], ?_, siblingsUpTo_nil T 0, fun frontier map hl _ => ?_⟩
      · rw [aggregateLevels, if_pos ⟨hstop, hone⟩]
        rfl
      · have hne : view frontier 1 ≠ none :=
          (hl.dom 1).mpr (Std.TreeSet.contains_iff_mem.mp hone)
        obtain ⟨x, hx⟩ := Option.ne_none_iff_exists'.mp hne
        obtain ⟨hstop, hhead⟩ := stops_of_layer_zero
          (fun j hj => hlevel j ((hl.dom j).mp hj)) hne
        rw [combineLevels, if_pos hstop, hhead, hx, hl.agrees 1 x hx, okOr_some]
  | succ d ih =>
      obtain ⟨fuel, rfl⟩ := Nat.exists_eq_succ_of_ne_zero (Nat.ne_zero_of_lt hfuel)
      obtain ⟨rest, hrest, hupto, hcombine⟩ := ih (Nat.le_of_succ_le hd)
        (Nat.lt_of_succ_lt_succ hfuel) (mem_aboveNodes.mpr ⟨i, hi, rfl⟩) (aboveNodes_level hlevel)
      obtain ⟨hround, hround_upto⟩ := aggregateLevels_succ hs hd hlevel hrest hupto
      refine ⟨_, hround, hround_upto, fun frontier map hl hmap => ?_⟩
      have hfirst : HasSiblings map ((unpaired nodes nodes.toList).map (siblingOf T)) :=
        fun s hs => hmap s (List.mem_append_left _ hs)
      obtain ⟨ps, hps, hnext⟩ := hl.round hT hd hlevel hfirst.unpaired
      rw [combineLevels, if_neg (not_stops_of_layer_succ fun j hj =>
        hlevel j ((hl.dom j).mp hj)), hps, ok_bind]
      exact hcombine _ _ hnext fun s hs => hmap s (List.mem_append_right _ hs)

/-- A list of siblings with distinct nodes is taken as a map of them. -/
lemma siblingMap_of_nodup {siblings : List ProofSibling}
    (hnodup : (siblings.map ProofSibling.index).Nodup) :
    ∃ map, siblingMap siblings = .ok map ∧ HasSiblings map siblings := by
  have hdistinct : (siblings.map fun s => (s.index, s.hash)).Pairwise
      fun a b => ¬compare a.1 b.1 = .eq := by
    rw [List.pairwise_map]
    refine (List.pairwise_map.mp hnodup).imp fun hne => ?_
    rwa [Nat.compare_eq_eq]
  refine ⟨_, ?_, fun s hs => (view_ofList hnodup).mpr ⟨s, hs, rfl, rfl⟩⟩
  rw [siblingMap, require_of]
  · rfl
  · rw [Std.TreeMap.size_ofList hdistinct, List.length_map]

/-- The map of a list of siblings has no others. -/
lemma mem_of_siblingMap {siblings : List ProofSibling}
    (hnodup : (siblings.map ProofSibling.index).Nodup) {map : DigestMap}
    (hmap : siblingMap siblings = .ok map) {i : ℕ} {x : Digest} (hx : view map i = some x) :
    ∃ s ∈ siblings, s.index = i ∧ s.hash = x := by
  rw [siblingMap] at hmap
  obtain ⟨-, -, hmap⟩ := bind_eq_ok.mp hmap
  obtain rfl := Outcome.ok.inj hmap
  exact (view_ofList hnodup).mp hx

end RustBinary.Projections
