import RustBinary.Projections.Completeness

/-!
# No sibling is superfluous

`aggregate_siblings` records a node only where the reconstruction will look it up, and it looks
up every node that it does not compute.  So none of the recorded nodes is above a selected leaf,
and without any one of them `combine_frontier` fails.
-/

namespace RustBinary.Projections

open Lib Lib.Outcome Lib.HeapTree

/-! ## A missing sibling -/

section Round

variable {frontier siblings : DigestMap}

/-- A round succeeds, or a sibling is missing. -/
lemma parents_cases {nodes : List ℕ} (h : Remaining frontier nodes) :
    (∃ ps, parents frontier siblings nodes = .ok ps) ∨
      parents frontier siblings nodes = .err .incompleteProof := by
  induction hn : nodes.length using Nat.strong_induction_on generalizing nodes with
  | _ n ih =>
    rcases nodes with _ | ⟨i, nodes⟩
    · exact .inl ⟨[], rfl⟩
    · obtain ⟨x, hx⟩ := Option.ne_none_iff_exists'.mp
        (view_ne_none_iff.mpr (h.mem i List.mem_cons_self))
      by_cases hsib : (i ^^^ 1) ∈ frontier
      · obtain ⟨-, rest, rfl, hrest⟩ := h.pair hsib
        obtain ⟨y, hy⟩ := Option.ne_none_iff_exists'.mp (view_ne_none_iff.mpr hsib)
        rw [parents_pair hy, hx, orPanic_some, ok_bind]
        rcases ih rest.length (by simp at hn; omega) hrest rfl with ⟨ps, hps⟩ | hfail
        · exact .inl ⟨_, by rw [hps, ok_bind]; rfl⟩
        · exact .inr (by rw [hfail, err_bind])
      · have hnone : view frontier (i ^^^ 1) = none := by
          by_contra hne
          exact hsib (view_ne_none_iff.mp hne)
        rw [parents_single hnone]
        cases view siblings (i ^^^ 1) with
        | none => exact .inr rfl
        | some y =>
            rw [okOr_some, ok_bind, hx, orPanic_some, ok_bind]
            rcases ih nodes.length (by simp at hn; omega) (h.single hsib) rfl with
              ⟨ps, hps⟩ | hfail
            · exact .inl ⟨_, by rw [hps, ok_bind]; rfl⟩
            · exact .inr (by rw [hfail, err_bind])

/-- A round that misses the sibling of one of its nodes fails. -/
lemma parents_missing {i : ℕ} (hi : i ∈ frontier) (hsib : view frontier (i ^^^ 1) = none)
    (hmissing : view siblings (i ^^^ 1) = none) :
    parents frontier siblings frontier.keys = .err .incompleteProof := by
  refine (parents_cases (remaining_keys frontier)).resolve_left ?_
  rintro ⟨ps, hps⟩
  have hlabel := (parents_eq_ok hps).1 i (view_ne_none_iff.mpr hi)
  rw [label_of_eq_none hsib] at hlabel
  exact hlabel hmissing

end Round

/-! ## The loops -/

section Loops

variable {node : Digest → Digest → Digest} {tree : List Digest} {T : ℕ → Digest} {h : ℕ}

/-- The siblings of a loop over `nodes`, from depth `d`: none of them is above a node, they are
not more than the nodes have levels, and `combine_frontier` needs each of them. -/
structure Minimal (node : Digest → Digest → Digest) (T : ℕ → Digest) (d fuel : ℕ)
    (nodes : Std.TreeSet ℕ) (siblings : List ProofSibling) : Prop where
  notAbove : ∀ s ∈ siblings, ∀ i ∈ nodes, ∀ k, s.index ≠ i / 2 ^ k
  length_le : siblings.length ≤ nodes.size * d
  needed : ∀ front s back, siblings = front ++ s :: back → ∀ frontier map,
    Labels T nodes frontier → HasSiblings map front → view map s.index = none →
      combineLevels node map fuel frontier = .err .incompleteProof

lemma size_aboveNodes_le (nodes : Std.TreeSet ℕ) : (aboveNodes nodes).size ≤ nodes.size := by
  refine Std.TreeSet.size_ofList_le.trans_eq ?_
  rw [List.length_map, Std.TreeSet.length_toList]

/-- At depth `0` there is nothing to record. -/
lemma minimal_nil (node : Digest → Digest → Digest) (T : ℕ → Digest) (fuel : ℕ)
    (nodes : Std.TreeSet ℕ) : Minimal node T 0 fuel nodes [] where
  notAbove := nofun
  length_le := Nat.zero_le _
  needed front s back h := by simp at h

/-- The siblings of a level in front of those of the levels above. -/
lemma Minimal.cons_level {d fuel : ℕ} {nodes : Std.TreeSet ℕ} {rest : List ProofSibling}
    (hrest : Minimal node T d fuel (aboveNodes nodes) rest) (hupto : SiblingsUpTo T d rest)
    (hT : IsTree node h T) (hd : d < h) (hlevel : ∀ i ∈ nodes, i ∈ level (d + 1)) :
    Minimal node T (d + 1) (fuel + 1) nodes
      ((unpaired nodes nodes.toList).map (siblingOf T) ++ rest) where
  notAbove := by
    intro s hs i hi k
    have hlevel' := hlevel i hi
    rcases List.mem_append.mp hs with hs | hs
    · obtain ⟨j, hj, rfl⟩ := List.mem_map.mp hs
      obtain ⟨hj, hsib⟩ := mem_unpaired.mp hj
      have hmem := xor_one_mem_level (hlevel j (Std.TreeSet.mem_toList.mp hj))
      cases k with
      | zero =>
          rw [pow_zero, Nat.div_one]
          rintro rfl
          exact hsib hi
      | succ k =>
          -- what is above a node is above its level
          intro heq
          have hle : i / 2 ^ (k + 1) ≤ i / 2 := by
            rw [pow_succ', ← Nat.div_div_eq_div_mul]
            exact Nat.div_le_self _ _
          have hhigh := (mem_level_succ.mp hlevel').2
          have hlow := hmem.1
          rw [siblingOf] at heq
          dsimp only at heq
          omega
    · cases k with
      | zero =>
          rw [pow_zero, Nat.div_one]
          rintro rfl
          obtain ⟨e, he, hmem⟩ := hupto.level s hs
          have := level_inj hlevel' hmem
          omega
      | succ k =>
          rw [pow_succ', ← Nat.div_div_eq_div_mul]
          exact hrest.notAbove s hs _ (mem_aboveNodes.mpr ⟨i, hi, rfl⟩) k
  length_le := by
    have hfirst : (unpaired nodes nodes.toList).length ≤ nodes.size :=
      (List.length_filter_le _ _).trans_eq Std.TreeSet.length_toList
    have hlater := hrest.length_le.trans (Nat.mul_le_mul_right d (size_aboveNodes_le nodes))
    rw [List.length_append, List.length_map, Nat.mul_succ]
    omega
  needed := by
    intro front s back hsplit frontier map hl hfront hmissing
    have hstop : ¬ (frontier.size = 1 ∧ frontier.contains 1) :=
      not_stops_of_layer_succ fun j hj => hlevel j ((hl.dom j).mp hj)
    rw [combineLevels, if_neg hstop]
    -- the missing sibling belongs to a level above, so that this round succeeds
    have habove (front' : List ProofSibling)
        (hfront' : front = (unpaired nodes nodes.toList).map (siblingOf T) ++ front')
        (hback : rest = front' ++ s :: back) :
        (parents frontier map frontier.keys >>= fun ps =>
          combineLevels node map fuel (nextFrontier node ps)) = .err .incompleteProof := by
      have hfirst : HasSiblings map ((unpaired nodes nodes.toList).map (siblingOf T)) := by
        intro t ht
        refine hfront t ?_
        rw [hfront']
        exact List.mem_append_left _ ht
      obtain ⟨ps, hps, hnext⟩ := hl.round hT hd hlevel hfirst.unpaired
      rw [hps, ok_bind]
      refine hrest.needed front' s back hback _ map hnext (fun t ht => hfront t ?_) hmissing
      rw [hfront']
      exact List.mem_append_right _ ht
    rcases List.append_eq_append_iff.mp hsplit with
      ⟨front', hfront', hback⟩ | ⟨_ | ⟨s', later⟩, hlater, hback⟩
    · exact habove front' hfront' hback
    · rw [List.append_nil] at hlater
      exact habove [] (by rw [List.append_nil, hlater]) hback.symm
    · -- the sibling is looked up in this round
      obtain ⟨rfl, -⟩ := List.cons.inj hback
      have hs : s ∈ (unpaired nodes nodes.toList).map (siblingOf T) := by
        rw [hlater]
        exact List.mem_append_right _ List.mem_cons_self
      obtain ⟨j, hj, rfl⟩ := List.mem_map.mp hs
      obtain ⟨hj, hsib⟩ := mem_unpaired.mp hj
      have hnone : view frontier (j ^^^ 1) = none := by
        by_contra hne
        exact hsib ((hl.dom _).mp hne)
      have hj' : j ∈ frontier := view_ne_none_iff.mp
        ((hl.dom j).mpr (Std.TreeSet.mem_toList.mp hj))
      rw [parents_missing hj' hnone hmissing, err_bind]

/-- The loop of `aggregate_siblings`, from depth `d`. -/
lemma aggregateLevels_minimal (hT : IsTree node h T) (hs : Stores tree T h) {d : ℕ} (hd : d ≤ h)
    {fuel : ℕ} (hfuel : d < fuel) {nodes : Std.TreeSet ℕ} {i : ℕ} (hi : i ∈ nodes)
    (hlevel : ∀ i ∈ nodes, i ∈ level d) :
    ∃ siblings, aggregateLevels tree fuel nodes = .ok siblings ∧ SiblingsUpTo T d siblings ∧
      Minimal node T d fuel nodes siblings := by
  induction d generalizing fuel nodes i with
  | zero =>
      obtain ⟨fuel, rfl⟩ := Nat.exists_eq_succ_of_ne_zero (Nat.ne_of_gt hfuel)
      refine ⟨[], ?_, siblingsUpTo_nil T 0, minimal_nil node T _ nodes⟩
      rw [aggregateLevels, if_pos (nodes_stop_of_level_zero hlevel hi)]
      rfl
  | succ d ih =>
      obtain ⟨fuel, rfl⟩ := Nat.exists_eq_succ_of_ne_zero (Nat.ne_zero_of_lt hfuel)
      obtain ⟨rest, hrest, hupto, hminimal⟩ := ih (Nat.le_of_succ_le hd)
        (Nat.lt_of_succ_lt_succ hfuel) (mem_aboveNodes.mpr ⟨i, hi, rfl⟩) (aboveNodes_level hlevel)
      obtain ⟨hround, hround_upto⟩ := aggregateLevels_succ hs hd hlevel hrest hupto
      exact ⟨_, hround, hround_upto, hminimal.cons_level hupto hT hd hlevel⟩

end Loops

/-! ## Records -/

lemma size_leafNodes_le (leafCount : ℕ) (queried : Std.TreeSet ℕ) :
    (leafNodes leafCount queried).size ≤ queried.size := by
  refine Std.TreeSet.size_ofList_le.trans_eq ?_
  rw [List.length_map, Std.TreeSet.length_toList]

/-- **Minimality.** Of a record and a selection of its fields: no sibling is recorded twice, none
is above a selected leaf, they are not more than the selected leaves have levels, and without
any one of them `combine_frontier` fails for want of it. -/
theorem aggregateSiblings_minimal (blake3 : List UInt8 → Digest) {fields : List ParsedField}
    (hfields : fields.length < 2 ^ 32) {selected : Std.TreeSet ℕ}
    (hne : selected.isEmpty = false) (hlt : ∀ j ∈ selected, j < fields.length) :
    ∃ siblings, aggregateSiblings (buildTree (nodeHash blake3) (merkleLeaves blake3 fields))
        (leafCount fields.length) selected = .ok siblings ∧
      (siblings.map ProofSibling.index).Nodup ∧
      (∀ s ∈ siblings, ∀ j ∈ selected, ∀ k, s.index ≠ (leafCount fields.length + j) / 2 ^ k) ∧
      siblings.length ≤ selected.size * Nat.log2 (leafCount fields.length) ∧
      ∀ front s back, siblings = front ++ s :: back →
        ∃ map, siblingMap (front ++ back) = .ok map ∧
          combineFrontier (nodeHash blake3) (leafMap (merkleLeaves blake3 fields) selected) map
            = .err .incompleteProof := by
  obtain ⟨h, hh⟩ := exists_leafCount fields.length
  obtain ⟨j, hj⟩ := Std.TreeSet.isEmpty_eq_false_iff_exists_mem.mp hne
  have hsize := leafCount_le fields.length
  have hheight : h < levelRounds := by
    have hpow : 2 ^ h < 2 ^ 34 := by
      rw [← hh]
      omega
    exact ((Nat.pow_lt_pow_iff_right (by decide)).mp hpow).trans (by decide)
  have hlength := length_merkleLeaves blake3 fields
  have hlt' : ∀ j ∈ selected, j < (merkleLeaves blake3 fields).length := fun j hj => by
    rw [hlength]
    exact (hlt j hj).trans_le (le_leafCount _)
  have hi : leafCount fields.length + j ∈ leafNodes (leafCount fields.length) selected :=
    mem_leafNodes.mpr ⟨j, hj, rfl⟩
  have hlevel := leafNodes_level (hlength.trans hh) hlt'
  have hlabels : Labels (treeLabel (nodeHash blake3) (merkleLeaves blake3 fields)) _ _ :=
    labels_leafMap hlt'
  rw [hlength] at hlevel hlabels
  obtain ⟨siblings, hok, hupto, hminimal⟩ := aggregateLevels_minimal
    (isTree_treeLabel (nodeHash blake3) (hlength.trans hh)) (stores_buildTree (hlength.trans hh))
    (Nat.le_refl h) hheight hi hlevel
  refine ⟨siblings, ?_, hupto.nodup, fun s hs j hj => ?_, ?_, fun front s back hsplit => ?_⟩
  · rw [aggregateSiblings, if_neg (by rw [hne]; decide)]
    exact hok
  · exact hminimal.notAbove s hs _ (mem_leafNodes.mpr ⟨j, hj, rfl⟩)
  · refine hminimal.length_le.trans ?_
    rw [hh, Nat.log2_two_pow]
    exact Nat.mul_le_mul_right h (size_leafNodes_le _ _)
  · have hnodup := hupto.nodup
    rw [hsplit, List.map_append, List.map_cons] at hnodup
    obtain ⟨hmiddle, hothers⟩ := List.nodup_middle.mp hnodup |> List.nodup_cons.mp
    rw [← List.map_append] at hmiddle hothers
    obtain ⟨map, hmap, hhas⟩ := siblingMap_of_nodup hothers
    have hmissing : view map s.index = none := by
      by_contra hne
      obtain ⟨x, hx⟩ := Option.ne_none_iff_exists'.mp hne
      obtain ⟨t, ht, hindex, -⟩ := mem_of_siblingMap hothers hmap hx
      exact hmiddle (hindex ▸ List.mem_map_of_mem ht)
    have hnonempty : (leafMap (merkleLeaves blake3 fields) selected).isEmpty = false :=
      Std.TreeMap.isEmpty_eq_false_iff_exists_mem.mpr
        ⟨_, view_ne_none_iff.mp ((hlabels.dom _).mpr hi)⟩
    refine ⟨map, hmap, ?_⟩
    rw [combineFrontier, if_neg (by rw [hnonempty]; decide)]
    exact hminimal.needed front s back hsplit _ map hlabels
      (fun t ht => hhas t (List.mem_append_left _ ht)) hmissing

/-- The third of three fields: its sibling is padding, and the other two stand behind one node. -/
theorem aggregateSiblings_minimal_third :
    ∃ siblings, aggregateSiblings (buildTree (nodeHash sampleHash)
        (merkleLeaves sampleHash (sampleFields ++ [(⟨3, []⟩ : ParsedField)]))) 4 (Std.TreeSet.ofList [2])
          = .ok siblings ∧
      (siblings.map ProofSibling.index).Nodup ∧ siblings.length ≤ 2 := by
  obtain ⟨siblings, hok, hnodup, -, hle, -⟩ := aggregateSiblings_minimal sampleHash
    (show (sampleFields ++ [(⟨3, []⟩ : ParsedField)]).length < 2 ^ 32 by decide)
    (show (Std.TreeSet.ofList [2]).isEmpty = false by decide) (by
      intro j hj
      rw [Std.TreeSet.mem_ofList, List.contains_iff_mem, List.mem_singleton] at hj
      rw [hj]
      decide)
  exact ⟨siblings, hok, hnodup, hle⟩

end RustBinary.Projections
