import RustBinary.Projections.Tree

/-!
# One round of the reconstruction

The loop of `combine_frontier` goes through a layer of the tree in the order of its nodes.
Where a node and its sibling are both in the layer they are neighbours, so the sibling can be
passed over; what comes out is the layer above (`IsParents.above`).
-/

namespace RustBinary.Projections

open Lib Lib.Outcome Lib.HeapTree

/-! ## Ordered maps -/

/-- The labels of a map. -/
def view (m : DigestMap) (i : ℕ) : Option Digest := m[i]?

lemma view_ne_none_iff {m : DigestMap} {i : ℕ} : view m i ≠ none ↔ i ∈ m := by
  rw [view, Option.ne_none_iff_isSome, Std.TreeMap.isSome_getElem?_iff_mem]

lemma mem_keys_iff {m : DigestMap} {i : ℕ} : i ∈ m.keys ↔ view m i ≠ none := by
  rw [Std.TreeMap.mem_keys, view_ne_none_iff]

lemma pairwise_keys (m : DigestMap) : m.keys.Pairwise (· < ·) :=
  Std.TreeMap.ordered_keys.imp fun h => Nat.compare_eq_lt.mp h

/-- A map made from a list with distinct keys has the entries of the list. -/
lemma view_ofList {β : Type} {l : List β} {key : β → ℕ} {value : β → Digest}
    (hnodup : (l.map key).Nodup) {i : ℕ} {x : Digest} :
    view (Std.TreeMap.ofList (l.map fun b => (key b, value b))) i = some x ↔
      ∃ b ∈ l, key b = i ∧ value b = x := by
  have hdistinct : (l.map fun b => (key b, value b)).Pairwise
      fun a b => ¬compare a.1 b.1 = .eq := by
    rw [List.pairwise_map]
    refine (List.pairwise_map.mp hnodup).imp fun hne => ?_
    rwa [Nat.compare_eq_eq]
  rw [view]
  constructor
  · intro h
    by_cases hmem : ∃ b ∈ l, key b = i
    · obtain ⟨b, hb, rfl⟩ := hmem
      refine ⟨b, hb, rfl, ?_⟩
      have hget := Std.TreeMap.getElem?_ofList_of_mem (Nat.compare_eq_eq.mpr rfl) hdistinct
        (List.mem_map.mpr ⟨b, hb, rfl⟩)
      rw [hget] at h
      exact Option.some.inj h
    · rw [Std.TreeMap.getElem?_ofList_of_contains_eq_false] at h
      · cases h
      · rw [← Bool.not_eq_true, List.contains_iff_mem]
        intro hi
        simp only [List.map_map, List.mem_map, Function.comp_apply] at hi
        exact hmem hi
  · rintro ⟨b, hb, rfl, rfl⟩
    exact Std.TreeMap.getElem?_ofList_of_mem (Nat.compare_eq_eq.mpr rfl) hdistinct
      (List.mem_map.mpr ⟨b, hb, rfl⟩)

/-! ## The nodes of a layer in order -/

/-- What is left of the frontier in the inner loop: the nodes are in order, and none of them
has its sibling among the nodes that have been dealt with. -/
structure Remaining (frontier : DigestMap) (nodes : List ℕ) : Prop where
  sorted : nodes.Pairwise (· < ·)
  mem : ∀ i ∈ nodes, i ∈ frontier
  paired : ∀ i ∈ nodes, (i ^^^ 1) ∈ frontier → (i ^^^ 1) ∈ nodes

lemma remaining_keys (frontier : DigestMap) : Remaining frontier frontier.keys :=
  ⟨pairwise_keys frontier, fun _ => Std.TreeMap.mem_keys.mp, fun _ _ => Std.TreeMap.mem_keys.mpr⟩

/-- If the first node has its sibling in the frontier, it is a left child and its sibling
comes next. -/
lemma Remaining.pair {frontier : DigestMap} {i : ℕ} {nodes : List ℕ}
    (h : Remaining frontier (i :: nodes)) (hi : (i ^^^ 1) ∈ frontier) :
    i = 2 * (i / 2) ∧ ∃ rest, nodes = (i ^^^ 1) :: rest ∧ Remaining frontier rest := by
  have hlt : ∀ j ∈ nodes, i < j := (List.pairwise_cons.mp h.sorted).1
  have hsib : (i ^^^ 1) ∈ nodes := by
    refine (List.mem_cons.mp (h.paired i List.mem_cons_self hi)).resolve_left fun heq => ?_
    have := xor_one_xor_one i
    rcases left_or_right i with hi' | hi'
    · rw [hi', xor_one_left] at heq
      omega
    · rw [hi', xor_one_right] at heq
      omega
  have hleft : i = 2 * (i / 2) := by
    refine (left_or_right i).resolve_right fun hright => ?_
    have := hlt _ hsib
    rw [hright, xor_one_right] at this
    omega
  have hxor : i ^^^ 1 = i + 1 := by
    rw [hleft, xor_one_left]
  refine ⟨hleft, ?_⟩
  rcases nodes with _ | ⟨j, rest⟩
  · cases hsib
  · have hj : j = i ^^^ 1 := by
      have hij := hlt j List.mem_cons_self
      rcases List.mem_cons.mp hsib with heq | hmem
      · exact heq.symm
      · have := (List.pairwise_cons.mp (List.pairwise_cons.mp h.sorted).2).1 _ hmem
        omega
    subst hj
    have hsorted := List.pairwise_cons.mp (List.pairwise_cons.mp h.sorted).2
    refine ⟨rest, rfl, hsorted.2, fun k hk => h.mem k (by simp [hk]), fun k hk hmem => ?_⟩
    have hk' := h.paired k (by simp [hk]) hmem
    rcases List.mem_cons.mp hk' with heq | hk'
    · have : k = i ^^^ 1 := by rw [← heq, xor_one_xor_one]
      have := hsorted.1 k hk
      omega
    · rcases List.mem_cons.mp hk' with heq | hk'
      · have hki : k = i := by
          rw [← xor_one_xor_one k, heq, xor_one_xor_one]
        have := hlt k (by simp [hk])
        omega
      · exact hk'

lemma Remaining.single {frontier : DigestMap} {i : ℕ} {nodes : List ℕ}
    (h : Remaining frontier (i :: nodes)) (hi : (i ^^^ 1) ∉ frontier) :
    Remaining frontier nodes := by
  refine ⟨(List.pairwise_cons.mp h.sorted).2, fun k hk => h.mem k (by simp [hk]),
    fun k hk hmem => ?_⟩
  refine (List.mem_cons.mp (h.paired k (by simp [hk]) hmem)).resolve_left fun heq => hi ?_
  rw [← heq, xor_one_xor_one]
  exact h.mem k (by simp [hk])

/-! ## The parents of a layer -/

variable {frontier siblings : DigestMap}

/-- `ps` are the parents of the nodes `nodes` of the frontier, each once. -/
structure IsParents (frontier siblings : DigestMap) (nodes : List ℕ) (ps : List Parent) :
    Prop where
  combines : ∀ p ∈ ps, Combines (view frontier) (view siblings) p.index p.left p.right
  ofNode : ∀ p ∈ ps, ∃ i ∈ nodes, i / 2 = p.index
  ofParent : ∀ i ∈ nodes, ∃ p ∈ ps, p.index = i / 2
  nodup : (ps.map Parent.index).Nodup

lemma isParents_nil : IsParents frontier siblings [] [] :=
  ⟨nofun, nofun, nofun, List.nodup_nil⟩

/-- One more parent, of a node and perhaps its sibling. -/
lemma IsParents.cons {nodes rest : List ℕ} {ps : List Parent} {p : Parent}
    (h : IsParents frontier siblings rest ps)
    (hp : Combines (view frontier) (view siblings) p.index p.left p.right)
    (hnode : ∃ i ∈ nodes, i / 2 = p.index) (hrest : ∀ i ∈ rest, i ∈ nodes ∧ i / 2 ≠ p.index)
    (hnodes : ∀ i ∈ nodes, i / 2 = p.index ∨ i ∈ rest) :
    IsParents frontier siblings nodes (p :: ps) where
  combines := List.forall_mem_cons.mpr ⟨hp, h.combines⟩
  ofNode := by
    refine List.forall_mem_cons.mpr ⟨hnode, fun q hq => ?_⟩
    obtain ⟨i, hi, heq⟩ := h.ofNode q hq
    exact ⟨i, (hrest i hi).1, heq⟩
  ofParent := by
    intro i hi
    rcases hnodes i hi with heq | hmem
    · exact ⟨p, List.mem_cons_self, heq.symm⟩
    · obtain ⟨q, hq, heq⟩ := h.ofParent i hmem
      exact ⟨q, List.mem_cons_of_mem _ hq, heq⟩
  nodup := by
    rw [List.map_cons, List.nodup_cons]
    refine ⟨fun hmem => ?_, h.nodup⟩
    obtain ⟨q, hq, heq⟩ := List.mem_map.mp hmem
    obtain ⟨i, hi, hi'⟩ := h.ofNode q hq
    exact (hrest i hi).2 (hi'.trans heq)

/-- A node whose sibling is in the frontier as well. -/
lemma parents_pair {i j : ℕ} {rest : List ℕ} {y : Digest} (hy : view frontier (i ^^^ 1) = some y) :
    parents frontier siblings (i :: j :: rest) = (do
      let left ← orPanic (view frontier i)
      let qs ← parents frontier siblings rest
      pure (⟨i / 2, left, y⟩ :: qs)) := by
  rw [parents, show frontier[i ^^^ 1]? = some y from hy]
  rfl

/-- A node without its sibling in the frontier. -/
lemma parents_single {i : ℕ} {nodes : List ℕ} (hnone : view frontier (i ^^^ 1) = none) :
    parents frontier siblings (i :: nodes) = (do
      let sibling ← okOr (view siblings (i ^^^ 1)) .incompleteProof
      let hash ← orPanic (view frontier i)
      let qs ← parents frontier siblings nodes
      pure ((if i % 2 = 0 then ⟨i / 2, hash, sibling⟩ else ⟨i / 2, sibling, hash⟩) :: qs)) := by
  cases nodes with
  | nil =>
      simp only [parents]
      rw [show frontier[i ^^^ 1]? = none from hnone]
      rfl
  | cons j nodes =>
      rw [parents, show frontier[i ^^^ 1]? = none from hnone]
      rfl

lemma div_two_ne {i j : ℕ} (hne : j ≠ i) (hxor : j ≠ i ^^^ 1) : j / 2 ≠ i / 2 := by
  intro heq
  rcases left_or_right i with hi | hi <;> rcases left_or_right j with hj | hj
  · omega
  · rw [hi, xor_one_left] at hxor
    omega
  · rw [hi, xor_one_right] at hxor
    omega
  · omega

/-- A round that has all siblings it needs gives the parents of the layer. -/
lemma parents_of_covers (hc : Covers (view frontier) (view siblings)) {nodes : List ℕ}
    (h : Remaining frontier nodes) :
    ∃ ps, parents frontier siblings nodes = .ok ps ∧ IsParents frontier siblings nodes ps := by
  induction hn : nodes.length using Nat.strong_induction_on generalizing nodes with
  | _ n ih =>
    rcases nodes with _ | ⟨i, nodes⟩
    · exact ⟨[], rfl, isParents_nil⟩
    · have hi : view frontier i ≠ none := view_ne_none_iff.mpr (h.mem i List.mem_cons_self)
      obtain ⟨x, hx⟩ := Option.ne_none_iff_exists'.mp hi
      have hlt := (List.pairwise_cons.mp h.sorted).1
      by_cases hsib : (i ^^^ 1) ∈ frontier
      · obtain ⟨hleft, rest, rfl, hrest⟩ := h.pair hsib
        obtain ⟨y, hy⟩ := Option.ne_none_iff_exists'.mp (view_ne_none_iff.mpr hsib)
        obtain ⟨ps, hps, hparents⟩ := ih rest.length (by simp at hn; omega) hrest rfl
        have hlt' := (List.pairwise_cons.mp (List.pairwise_cons.mp h.sorted).2).1
        refine ⟨⟨i / 2, x, y⟩ :: ps, ?_, ?_⟩
        · rw [parents_pair hy, hx, orPanic_some, ok_bind, hps]
          rfl
        · refine hparents.cons ?_ ⟨i, List.mem_cons_self, rfl⟩ (fun j hj => ?_) fun j hj => ?_
          · refine ⟨hasChild_iff.mpr ⟨i, hi, rfl⟩, ?_, ?_⟩
            · rw [← hleft, label_of_ne hi, hx]
            · rw [← xor_one_left, ← hleft, label_of_ne (view_ne_none_iff.mpr hsib), hy]
          · have hne : j ≠ i := (hlt j (by simp [hj])).ne'
            exact ⟨by simp [hj], div_two_ne hne (hlt' j hj).ne'⟩
          · rcases List.mem_cons.mp hj with rfl | hj
            · exact .inl rfl
            · rcases List.mem_cons.mp hj with rfl | hj
              · exact .inl (xor_one_div_two i)
              · exact .inr hj
      · have hnone : view frontier (i ^^^ 1) = none := by
          by_contra hne
          exact hsib (view_ne_none_iff.mp hne)
        obtain ⟨y, hy⟩ := Option.ne_none_iff_exists'.mp (hc i hi)
        have hlabel := hy
        rw [label_of_eq_none hnone] at hy
        obtain ⟨ps, hps, hparents⟩ := ih nodes.length (by simp at hn; omega) (h.single hsib) rfl
        refine ⟨(if i % 2 = 0 then ⟨i / 2, x, y⟩ else ⟨i / 2, y, x⟩) :: ps, ?_, ?_⟩
        · rw [parents_single hnone, show view siblings (i ^^^ 1) = some y from hy, okOr_some,
            ok_bind, hx, orPanic_some, ok_bind, hps]
          rfl
        · have hchild : HasChild (view frontier) (i / 2) := hasChild_iff.mpr ⟨i, hi, rfl⟩
          have hx' : label (view frontier) (view siblings) i = some x := by
            rw [label_of_ne hi, hx]
          have hrest : ∀ j ∈ nodes, j ∈ i :: nodes ∧ j / 2 ≠ i / 2 := by
            intro j hj
            refine ⟨by simp [hj], div_two_ne (hlt j hj).ne' fun heq => hsib ?_⟩
            rw [← heq]
            exact h.mem j (by simp [hj])
          have hnodes : ∀ j ∈ i :: nodes, j / 2 = i / 2 ∨ j ∈ nodes := by
            intro j hj
            rcases List.mem_cons.mp hj with rfl | hj
            · exact .inl rfl
            · exact .inr hj
          by_cases heven : i % 2 = 0
          · rw [if_pos heven]
            have hi2 : i = 2 * (i / 2) := by omega
            refine hparents.cons ⟨hchild, ?_, ?_⟩ ⟨i, List.mem_cons_self, rfl⟩ hrest hnodes
            · rw [← hi2, hx']
            · rw [← xor_one_left, ← hi2, hlabel]
          · rw [if_neg heven]
            have hi2 : i = 2 * (i / 2) + 1 := by omega
            refine hparents.cons ⟨hchild, ?_, ?_⟩ ⟨i, List.mem_cons_self, rfl⟩ hrest hnodes
            · rw [← xor_one_right, ← hi2, hlabel]
            · rw [← hi2, hx']

/-- A round that succeeds had all siblings it needs. -/
lemma label_of_parents {nodes : List ℕ} (h : Remaining frontier nodes) {ps : List Parent}
    (hok : parents frontier siblings nodes = .ok ps) :
    ∀ i ∈ nodes, label (view frontier) (view siblings) (i ^^^ 1) ≠ none := by
  induction hn : nodes.length using Nat.strong_induction_on generalizing nodes ps with
  | _ n ih =>
    rcases nodes with _ | ⟨i, nodes⟩
    · nofun
    · by_cases hsib : (i ^^^ 1) ∈ frontier
      · obtain ⟨hleft, rest, rfl, hrest⟩ := h.pair hsib
        obtain ⟨y, hy⟩ := Option.ne_none_iff_exists'.mp (view_ne_none_iff.mpr hsib)
        rw [parents_pair hy] at hok
        obtain ⟨x, hx, hok⟩ := bind_eq_ok.mp hok
        obtain ⟨qs, hqs, -⟩ := bind_eq_ok.mp hok
        have hi : i ∈ frontier := h.mem i List.mem_cons_self
        intro j hj
        rcases List.mem_cons.mp hj with rfl | hj
        · rw [label_of_ne (view_ne_none_iff.mpr hsib)]
          exact view_ne_none_iff.mpr hsib
        · rcases List.mem_cons.mp hj with rfl | hj
          · rw [xor_one_xor_one, label_of_ne (view_ne_none_iff.mpr hi)]
            exact view_ne_none_iff.mpr hi
          · exact ih rest.length (by simp at hn; omega) hrest hqs rfl j hj
      · have hnone : view frontier (i ^^^ 1) = none := by
          by_contra hne
          exact hsib (view_ne_none_iff.mp hne)
        rw [parents_single hnone] at hok
        obtain ⟨y, hy, hok⟩ := bind_eq_ok.mp hok
        obtain ⟨x, hx, hok⟩ := bind_eq_ok.mp hok
        obtain ⟨qs, hqs, -⟩ := bind_eq_ok.mp hok
        intro j hj
        rcases List.mem_cons.mp hj with rfl | hj
        · rw [label_of_eq_none hnone, okOr_eq_ok.mp hy]
          exact Option.some_ne_none _
        · exact ih nodes.length (by simp at hn; omega) (h.single hsib) hqs rfl j hj

/-- A round of the loop succeeds exactly when every sibling is there, and then gives the
parents of the layer. -/
lemma parents_eq_ok {ps : List Parent}
    (hok : parents frontier siblings frontier.keys = .ok ps) :
    Covers (view frontier) (view siblings) ∧
      IsParents frontier siblings frontier.keys ps := by
  have hc : Covers (view frontier) (view siblings) := fun i hi =>
    label_of_parents (remaining_keys frontier) hok i (mem_keys_iff.mpr hi)
  obtain ⟨qs, hqs, hparents⟩ := parents_of_covers hc (remaining_keys frontier)
  rw [hok] at hqs
  cases hqs
  exact ⟨hc, hparents⟩

/-- The parents of a layer make up the layer above it. -/
lemma IsParents.above (node : Digest → Digest → Digest) {ps : List Parent}
    (h : IsParents frontier siblings frontier.keys ps) :
    Above node (view frontier) (view siblings) (view (nextFrontier node ps)) := by
  intro q y
  rw [nextFrontier, view_ofList h.nodup]
  constructor
  · rintro ⟨p, hp, rfl, rfl⟩
    exact ⟨p.left, p.right, h.combines p hp, rfl⟩
  · rintro ⟨l, r, hcomb, rfl⟩
    obtain ⟨i, hi, rfl⟩ := hasChild_iff.mp hcomb.1
    obtain ⟨p, hp, hindex⟩ := h.ofParent i (mem_keys_iff.mpr hi)
    have hp' := h.combines p hp
    rw [hindex] at hp'
    have hleft := hp'.2.1.symm.trans hcomb.2.1
    have hright := hp'.2.2.symm.trans hcomb.2.2
    exact ⟨p, hp, hindex, by rw [Option.some.inj hleft, Option.some.inj hright]⟩

/-! ## The last round -/

lemma eq_singleton_one {nodes : List ℕ} (hsorted : nodes.Pairwise (· < ·)) (hmem : 1 ∈ nodes)
    (hall : ∀ i ∈ nodes, i = 1) : nodes = [1] := by
  rcases nodes with _ | ⟨i, _ | ⟨j, nodes⟩⟩
  · cases hmem
  · rw [hall i (by simp)]
  · have hi := hall i (by simp)
    have hj := hall j (by simp)
    have hlt := (List.pairwise_cons.mp hsorted).1 j (by simp)
    omega

/-- At depth `0` the frontier is the root alone. -/
lemma stops_of_layer_zero {i : ℕ} (hF : Layer 0 (view frontier)) (hne : view frontier i ≠ none) :
    (frontier.size = 1 ∧ frontier.contains 1) ∧ (frontier.toList.map Prod.snd).head? = view frontier 1 := by
  obtain rfl := mem_level_zero.mp (hF i hne)
  obtain ⟨x, hx⟩ := Option.ne_none_iff_exists'.mp hne
  have hkeys : frontier.keys = [1] :=
    eq_singleton_one (pairwise_keys frontier) (mem_keys_iff.mpr hne) fun k hk =>
      mem_level_zero.mp (hF k (mem_keys_iff.mp hk))
  have hlist : frontier.toList = [(1, x)] := by
    have hfst : frontier.toList.map Prod.fst = [1] := by
      rw [Std.TreeMap.map_fst_toList_eq_keys, hkeys]
    have hmem : (1, x) ∈ frontier.toList :=
      Std.TreeMap.mem_toList_iff_getElem?_eq_some.mpr hx
    rcases hl : frontier.toList with _ | ⟨a, _ | ⟨b, l⟩⟩
    · rw [hl] at hmem
      cases hmem
    · rw [hl] at hmem
      rw [List.mem_singleton.mp hmem]
    · rw [hl] at hfst
      simp at hfst
  refine ⟨⟨?_, Std.TreeMap.contains_iff_mem.mpr (view_ne_none_iff.mp hne)⟩, ?_⟩
  · rw [← Std.TreeMap.length_keys, hkeys]
    rfl
  · rw [hx, hlist]
    rfl

/-- Below the root the loop goes on. -/
lemma not_stops_of_layer_succ {d : ℕ} (hF : Layer (d + 1) (view frontier)) :
    ¬ (frontier.size = 1 ∧ frontier.contains 1) := by
  rintro ⟨-, h⟩
  exact one_notMem_level (hF 1 (view_ne_none_iff.mpr (Std.TreeMap.contains_iff_mem.mp h)))

end RustBinary.Projections
