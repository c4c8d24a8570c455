import Mathlib.Data.Nat.Bitwise

/-!
# Complete binary trees in heap layout

The nodes of a complete binary tree are numbered from the root, which is `1`, so that the
children of `p` are `2 * p` and `2 * p + 1`.  A tree of height `h` is a labelling in which
every node above the leaves is labelled by `node` of the labels of its children.

A *layer* is a partial labelling of the nodes of one level.  `above` combines a layer with
labels of missing siblings into a layer one level up.  Two facts relate it to a tree:

* `above_eq`: from labels of the tree it makes labels of the tree;
* `agrees_of_above`: if it has made labels of the tree, and `node` is injective on what was
  combined, then it was given labels of the tree.
-/

namespace Lib.HeapTree

/-! ## Nodes and levels -/

lemma xor_one_left (p : ℕ) : (2 * p) ^^^ 1 = 2 * p + 1 := Nat.xor_one_of_even ⟨p, by omega⟩

lemma xor_one_right (p : ℕ) : (2 * p + 1) ^^^ 1 = 2 * p := by
  rw [Nat.xor_one_of_odd ⟨p, rfl⟩, Nat.add_sub_cancel]

/-- A node is the left or the right child of its parent. -/
lemma left_or_right (i : ℕ) : i = 2 * (i / 2) ∨ i = 2 * (i / 2) + 1 := by omega

lemma xor_one_div_two (i : ℕ) : (i ^^^ 1) / 2 = i / 2 := by
  rcases left_or_right i with h | h
  · rw [h, xor_one_left]
    omega
  · rw [h, xor_one_right]
    omega

lemma xor_one_xor_one (i : ℕ) : (i ^^^ 1) ^^^ 1 = i := by
  rw [Nat.xor_assoc, Nat.xor_self, Nat.xor_zero]

/-- The nodes at depth `d`. -/
def level (d : ℕ) : Set ℕ := {i | 2 ^ d ≤ i ∧ i < 2 ^ (d + 1)}

lemma mem_level_zero {i : ℕ} : i ∈ level 0 ↔ i = 1 := by
  simp only [level, Set.mem_ofPred_eq, pow_zero, Nat.zero_add, pow_one]
  omega

lemma mem_level_succ {d i : ℕ} : i ∈ level (d + 1) ↔ i / 2 ∈ level d := by
  simp only [level, Set.mem_ofPred_eq, pow_succ]
  omega

lemma one_le_of_mem_level {d i : ℕ} (h : i ∈ level d) : 1 ≤ i :=
  (Nat.one_le_two_pow).trans h.1

lemma lt_of_mem_level {d h i : ℕ} (hi : i ∈ level d) (hd : d < h) : i < 2 ^ h :=
  hi.2.trans_le (Nat.pow_le_pow_right (by decide) hd)

/-- A node has one depth. -/
lemma level_inj {d e i : ℕ} (hd : i ∈ level d) (he : i ∈ level e) : d = e := by
  have h₁ : d < e + 1 := (Nat.pow_lt_pow_iff_right (by decide)).mp (hd.1.trans_lt he.2)
  have h₂ : e < d + 1 := (Nat.pow_lt_pow_iff_right (by decide)).mp (he.1.trans_lt hd.2)
  omega

lemma xor_one_mem_level {d i : ℕ} (h : i ∈ level (d + 1)) : i ^^^ 1 ∈ level (d + 1) := by
  rw [mem_level_succ, xor_one_div_two]
  exact mem_level_succ.mp h

lemma one_notMem_level {d : ℕ} : 1 ∉ level (d + 1) := by
  rw [mem_level_succ]
  exact fun h => absurd (one_le_of_mem_level h) (by decide)

/-! ## Trees and layers -/

variable {α : Type*} (node : α → α → α)

/-- The labelling `T` of a tree of height `h`. -/
def IsTree (h : ℕ) (T : ℕ → α) : Prop :=
  ∀ p, 1 ≤ p → p < 2 ^ h → T p = node (T (2 * p)) (T (2 * p + 1))

/-- The partial labelling `F` has labels at depth `d` only. -/
def Layer (d : ℕ) (F : ℕ → Option α) : Prop := ∀ i, F i ≠ none → i ∈ level d

/-- The labels of `F` are those of `T`. -/
def Agrees (F : ℕ → Option α) (T : ℕ → α) : Prop := ∀ i x, F i = some x → x = T i

/-- The label of a node in `F`, or else its label as a missing sibling in `S`. -/
def label (F S : ℕ → Option α) (i : ℕ) : Option α := (F i).or (S i)

/-- One of the children of `p` is labelled by `F`. -/
def HasChild (F : ℕ → Option α) (p : ℕ) : Prop := F (2 * p) ≠ none ∨ F (2 * p + 1) ≠ none

/-- At `p` the labels `l` and `r` are combined. -/
def Combines (F S : ℕ → Option α) (p : ℕ) (l r : α) : Prop :=
  HasChild F p ∧ label F S (2 * p) = some l ∧ label F S (2 * p + 1) = some r

/-- `G` is the layer above `F`, whose missing siblings `S` has. -/
def Above (F S G : ℕ → Option α) : Prop :=
  ∀ p y, G p = some y ↔ ∃ l r, Combines F S p l r ∧ y = node l r

/-- Every node of `F` has its sibling in `F` or in `S`. -/
def Covers (F S : ℕ → Option α) : Prop := ∀ i, F i ≠ none → label F S (i ^^^ 1) ≠ none

section

variable {node} {F S G : ℕ → Option α} {T : ℕ → α} {d h : ℕ}

lemma hasChild_iff {p : ℕ} : HasChild F p ↔ ∃ i, F i ≠ none ∧ i / 2 = p := by
  constructor
  · rintro (h | h)
    · exact ⟨_, h, by omega⟩
    · exact ⟨_, h, by omega⟩
  · rintro ⟨i, hi, rfl⟩
    rcases left_or_right i with h | h
    · exact .inl (h ▸ hi)
    · exact .inr (h ▸ hi)

lemma label_of_ne {i : ℕ} (h : F i ≠ none) : label F S i = F i := by
  obtain ⟨x, hx⟩ := Option.ne_none_iff_exists'.mp h
  rw [label, hx]
  rfl

lemma label_of_eq_none {i : ℕ} (h : F i = none) : label F S i = S i := by
  rw [label, h]
  rfl

/-- Both children of a parent of a covered layer have labels. -/
lemma Covers.combines (hc : Covers F S) {p : ℕ} (hp : HasChild F p) :
    ∃ l r, Combines F S p l r := by
  have hboth : label F S (2 * p) ≠ none ∧ label F S (2 * p + 1) ≠ none := by
    rcases hp with h | h
    · refine ⟨by rwa [label_of_ne h], ?_⟩
      rw [← xor_one_left]
      exact hc _ h
    · refine ⟨?_, by rwa [label_of_ne h]⟩
      rw [← xor_one_right]
      exact hc _ h
  obtain ⟨l, hl⟩ := Option.ne_none_iff_exists'.mp hboth.1
  obtain ⟨r, hr⟩ := Option.ne_none_iff_exists'.mp hboth.2
  exact ⟨l, r, hp, hl, hr⟩

lemma Above.hasChild (ha : Above node F S G) {p : ℕ} (hp : G p ≠ none) : HasChild F p := by
  obtain ⟨y, hy⟩ := Option.ne_none_iff_exists'.mp hp
  obtain ⟨l, r, hc, -⟩ := (ha p y).mp hy
  exact hc.1

/-- The layer above is a layer one level up. -/
lemma Above.layer (ha : Above node F S G) (hF : Layer (d + 1) F) : Layer d G := by
  intro p hp
  obtain ⟨i, hi, rfl⟩ := hasChild_iff.mp (ha.hasChild hp)
  exact mem_level_succ.mp (hF i hi)

/-- The layer above labels the parents of the nodes of a covered layer. -/
lemma Above.ne_none_iff (ha : Above node F S G) (hc : Covers F S) {p : ℕ} :
    G p ≠ none ↔ ∃ i, F i ≠ none ∧ i / 2 = p := by
  rw [← hasChild_iff]
  refine ⟨ha.hasChild, fun hp => ?_⟩
  obtain ⟨l, r, hcomb⟩ := hc.combines hp
  rw [(ha p _).mpr ⟨l, r, hcomb, rfl⟩]
  exact Option.some_ne_none _

/-- From labels of a tree the layer above has labels of the tree. -/
lemma above_agrees (hT : IsTree node h T) (hd : d < h) (hF : Layer (d + 1) F)
    (hagree : Agrees F T) (hS : ∀ i x, F i = none → F (i ^^^ 1) ≠ none → S i = some x → x = T i)
    (ha : Above node F S G) : Agrees G T := by
  intro p y hy
  obtain ⟨l, r, ⟨hp, hl, hr⟩, rfl⟩ := (ha p y).mp hy
  have hlevel : p ∈ level d := ha.layer hF p (by rw [hy]; exact Option.some_ne_none _)
  have hlabel : ∀ i x, F i ≠ none ∨ F (i ^^^ 1) ≠ none → label F S i = some x → x = T i := by
    intro i x hi hx
    by_cases hnone : F i = none
    · rw [label_of_eq_none hnone] at hx
      exact hS i x hnone (hi.resolve_left fun h => h hnone) hx
    · rw [label_of_ne hnone] at hx
      exact hagree i x hx
  rw [hT p (one_le_of_mem_level hlevel) (lt_of_mem_level hlevel hd)]
  congr 1
  · exact hlabel _ l (by rwa [xor_one_left]) hl
  · exact hlabel _ r (by rw [xor_one_right]; exact hp.symm) hr

/-- If the layer above has labels of a tree and `node` is injective on what was combined,
the layer has labels of the tree. -/
lemma agrees_of_above (hT : IsTree node h T) (hd : d < h) (hF : Layer (d + 1) F)
    (hc : Covers F S) (ha : Above node F S G) (hagree : Agrees G T)
    (hinj : ∀ p l r, p ∈ level d → Combines F S p l r →
      node l r = node (T (2 * p)) (T (2 * p + 1)) → l = T (2 * p) ∧ r = T (2 * p + 1)) :
    Agrees F T := by
  intro i x hx
  have hne : F i ≠ none := by
    rw [hx]
    exact Option.some_ne_none _
  have hlevel : i / 2 ∈ level d := mem_level_succ.mp (hF i hne)
  obtain ⟨l, r, hcomb⟩ := hc.combines (hasChild_iff.mpr ⟨i, hne, rfl⟩)
  have hnode := hagree (i / 2) _ ((ha _ _).mpr ⟨l, r, hcomb, rfl⟩)
  rw [hT _ (one_le_of_mem_level hlevel) (lt_of_mem_level hlevel hd)] at hnode
  obtain ⟨hl, hr⟩ := hinj _ l r hlevel hcomb hnode
  have hlabel : label F S i = some x := by rw [label_of_ne hne, hx]
  rcases left_or_right i with h | h
  · rw [h, hcomb.2.1] at hlabel
    rw [← Option.some.inj hlabel, hl, ← h]
  · rw [h, hcomb.2.2] at hlabel
    rw [← Option.some.inj hlabel, hr, ← h]

/-- Two trees with one root have the same labels as far down as both go, if `node` is injective
on what they combine. -/
lemma labels_eq_of_root_eq {U : ℕ → α} {k : ℕ} (hT : IsTree node h T) (hU : IsTree node k U)
    (hroot : T 1 = U 1)
    (hinj : ∀ p, 1 ≤ p → p < 2 ^ h → p < 2 ^ k →
      node (T (2 * p)) (T (2 * p + 1)) = node (U (2 * p)) (U (2 * p + 1)) →
        T (2 * p) = U (2 * p) ∧ T (2 * p + 1) = U (2 * p + 1)) :
    ∀ d, d ≤ h → d ≤ k → ∀ i ∈ level d, T i = U i := by
  intro d
  induction d with
  | zero =>
      intro _ _ i hi
      rw [mem_level_zero.mp hi, hroot]
  | succ d ih =>
      intro hdh hdk i hi
      have hp := mem_level_succ.mp hi
      have hone := one_le_of_mem_level hp
      have hlt := lt_of_mem_level hp hdh
      have hlt' := lt_of_mem_level hp hdk
      have hparent := ih (by omega) (by omega) (i / 2) hp
      rw [hT _ hone hlt, hU _ hone hlt'] at hparent
      obtain ⟨hl, hr⟩ := hinj _ hone hlt hlt' hparent
      rcases left_or_right i with heq | heq
      · rw [heq]
        exact hl
      · rw [heq]
        exact hr

end

end Lib.HeapTree
