import RustBinary.Lib.Tree
import Mathlib.Data.List.Perm.Basic
import Mathlib.Data.List.Sort

/-!
# Trees and the order of their keys

Two trees may differ in nothing but the order of the entries of their objects.  Sorting the
entries of every object by key gives each class of such trees a member of its own, as long as no
object has one key twice.
-/

namespace Lib

variable {σ κ : Type}

/-! ## Entries -/

/-- The entries of a container. -/
def Forest.entries {kind : Kind} : Forest σ κ kind → List (KeyOf κ kind × Tree σ κ)
  | .nil => []
  | .cons key value rest => (key, value) :: rest.entries

def Forest.ofEntries {kind : Kind} : List (KeyOf κ kind × Tree σ κ) → Forest σ κ kind
  | [] => .nil
  | (key, value) :: rest => .cons key value (ofEntries rest)

@[simp] lemma Forest.entries_ofEntries {kind : Kind} :
    ∀ entries : List (KeyOf κ kind × Tree σ κ), (ofEntries entries).entries = entries
  | [] => rfl
  | (key, value) :: rest => by rw [ofEntries, Forest.entries, entries_ofEntries rest]

/-- Induction over the entries of a container, whatever their values are. -/
lemma Forest.induction {motive : {kind : Kind} → Forest σ κ kind → Prop}
    (nil : ∀ {kind : Kind}, motive (.nil : Forest σ κ kind))
    (cons : ∀ {kind : Kind} (key : KeyOf κ kind) (value : Tree σ κ) (rest : Forest σ κ kind),
      motive rest → motive (.cons key value rest)) {kind : Kind} (forest : Forest σ κ kind) :
    motive forest :=
  @Forest.rec σ κ (fun _ => True) (fun _ forest => motive forest) (fun _ => trivial)
    (fun _ _ _ => trivial) nil (fun key value rest _ ih => cons key value rest ih) kind forest

@[simp] lemma Forest.ofEntries_entries {kind : Kind} (forest : Forest σ κ kind) :
    ofEntries forest.entries = forest := by
  induction forest using Forest.induction with
  | nil => rfl
  | cons key value rest ih => rw [Forest.entries, ofEntries, ih]

lemma Forest.entries_inj {kind : Kind} {forest other : Forest σ κ kind}
    (h : forest.entries = other.entries) : forest = other := by
  rw [← ofEntries_entries forest, h, ofEntries_entries]

/-! ## Reordering -/

/-- The entries of an object in another order. -/
def Forest.Shuffled : {kind : Kind} → Forest σ κ kind → Forest σ κ kind → Prop
  | .array, items, other => other = items
  | .object, map, other => map.entries.Perm other.entries

mutual

/-- The same tree up to the order of the entries of its objects, at any level. -/
def Tree.Reorders : Tree σ κ → Tree σ κ → Prop
  | .scalar value, other => other = .scalar value
  | .node kind entries, other =>
      ∃ between out : Forest σ κ kind, entries.ReordersEach between ∧ between.Shuffled out ∧
        other = .node kind out

/-- Each value up to the order of the entries of its objects. -/
def Forest.ReordersEach {kind : Kind} : Forest σ κ kind → Forest σ κ kind → Prop
  | .nil, other => other = .nil
  | .cons key value rest, other =>
      ∃ value' rest', value.Reorders value' ∧ rest.ReordersEach rest' ∧
        other = .cons key value' rest'

end

/-- No key stands twice. -/
def Forest.DistinctKeys : {kind : Kind} → Forest σ κ kind → Prop
  | .array, _ => True
  | .object, map => (map.entries.map Prod.fst).Nodup

mutual

/-- No object has one key twice. -/
def Tree.Distinct : Tree σ κ → Prop
  | .scalar _ => True
  | .node _ entries => entries.DistinctKeys ∧ entries.DistinctEach

def Forest.DistinctEach {kind : Kind} : Forest σ κ kind → Prop
  | .nil => True
  | .cons _ value rest => value.Distinct ∧ rest.DistinctEach

end

/-! ## Sorting -/

section Sorting

variable (le : κ → κ → Bool)

/-- An order of keys that tells them apart. -/
structure KeyOrder : Prop where
  trans : ∀ a b c, le a b → le b c → le a c
  total : ∀ a b, (le a b || le b a) = true
  antisymm : ∀ a b, le a b → le b a → a = b

/-- The entries of an object in the order of their keys. -/
def Forest.sorted : {kind : Kind} → Forest σ κ kind → Forest σ κ kind
  | .array, items => items
  | .object, map => ofEntries (map.entries.mergeSort fun left right => le left.1 right.1)

/-- The strict part of the order. -/
def Strictly (a b : κ) : Prop := le a b ∧ ¬ le b a

mutual

def Tree.sortKeys : Tree σ κ → Tree σ κ
  | .scalar value => .scalar value
  | .node kind entries => .node kind (entries.sortEach.sorted le)

def Forest.sortEach {kind : Kind} : Forest σ κ kind → Forest σ κ kind
  | .nil => .nil
  | .cons key value rest => .cons key value.sortKeys rest.sortEach

end

end Sorting

section Sorted

variable (lt : κ → κ → Prop)

/-- The keys of an object increase. -/
def Forest.Increasing : {kind : Kind} → Forest σ κ kind → Prop
  | .array, _ => True
  | .object, map => map.entries.Pairwise fun left right => lt left.1 right.1

mutual

/-- The keys of every object increase. -/
def Tree.Sorted : Tree σ κ → Prop
  | .scalar _ => True
  | .node _ entries => entries.Increasing lt ∧ entries.SortedEach

def Forest.SortedEach {kind : Kind} : Forest σ κ kind → Prop
  | .nil => True
  | .cons _ value rest => value.Sorted ∧ rest.SortedEach

end

end Sorted

/-! ## One container -/

section Container

variable {le : κ → κ → Bool} {kind : Kind}

lemma Forest.shuffled_refl (forest : Forest σ κ kind) : forest.Shuffled forest := by
  cases kind with
  | array => rfl
  | object => exact List.Perm.refl _

lemma Forest.shuffled_sorted (le : κ → κ → Bool) (forest : Forest σ κ kind) :
    forest.Shuffled (forest.sorted le) := by
  cases kind with
  | array => rfl
  | object =>
      rw [Shuffled, sorted, entries_ofEntries]
      exact (List.mergeSort_perm _ _).symm

lemma Forest.Shuffled.symm {forest other : Forest σ κ kind} (h : forest.Shuffled other) :
    other.Shuffled forest := by
  cases kind with
  | array => exact Eq.symm h
  | object => exact List.Perm.symm h

lemma Forest.Shuffled.trans {first second third : Forest σ κ kind} (h : first.Shuffled second)
    (h' : second.Shuffled third) : first.Shuffled third := by
  cases kind with
  | array => exact Eq.trans h' h
  | object => exact List.Perm.trans h h'

lemma Forest.Shuffled.distinctKeys_iff {forest other : Forest σ κ kind}
    (h : forest.Shuffled other) : forest.DistinctKeys ↔ other.DistinctKeys := by
  cases kind with
  | array => exact Iff.rfl
  | object => exact (List.Perm.map Prod.fst h).nodup_iff

/-- Of the orders of an object without duplicates only one increases. -/
lemma Forest.Shuffled.eq_of_increasing {forest other : Forest σ κ kind} (h : forest.Shuffled other)
    (hforest : forest.Increasing (Strictly le)) (hother : other.Increasing (Strictly le)) :
    other = forest := by
  cases kind with
  | array => exact h
  | object =>
      refine entries_inj (h.eq_of_pairwise (fun a b _ _ hab hba => ?_) hforest hother).symm
      exact absurd hba.1 hab.2

lemma Forest.increasing_sorted (hle : KeyOrder le) {forest : Forest σ κ kind}
    (h : forest.DistinctKeys) : (forest.sorted le).Increasing (Strictly le) := by
  cases kind with
  | array => trivial
  | object =>
      rw [Increasing, sorted, entries_ofEntries]
      have hsorted := List.pairwise_mergeSort
        (fun a b c => hle.trans a.1 b.1 c.1) (fun a b => hle.total a.1 b.1) forest.entries
      have hdistinct : (forest.entries.mergeSort fun left right =>
          le left.1 right.1).Pairwise fun left right => left.1 ≠ right.1 := by
        rw [← List.pairwise_map (f := Prod.fst) (R := (· ≠ ·))]
        exact ((List.mergeSort_perm _ _).map Prod.fst).nodup_iff.mpr h
      refine (hsorted.and hdistinct).imp fun hab => ⟨hab.1, fun hba => ?_⟩
      exact hab.2 (hle.antisymm _ _ hab.1 hba)

lemma Forest.Increasing.distinctKeys {forest : Forest σ κ kind} (h : forest.Increasing (Strictly le)) :
    forest.DistinctKeys := by
  cases kind with
  | array => trivial
  | object =>
      refine List.pairwise_map.mpr (List.Pairwise.imp ?_ h)
      rintro ⟨a, _⟩ ⟨b, _⟩ hab rfl
      exact hab.2 hab.1

/-- What increases is sorted already. -/
lemma Forest.sorted_of_increasing (hle : KeyOrder le) {forest : Forest σ κ kind}
    (h : forest.Increasing (Strictly le)) : forest.sorted le = forest :=
  (shuffled_sorted le forest).eq_of_increasing h (increasing_sorted hle h.distinctKeys)

end Container

/-! ## Whole trees -/

section Trees

variable {le : κ → κ → Bool}

lemma Forest.entries_sortEach {kind : Kind} (forest : Forest σ κ kind) :
    (forest.sortEach le).entries =
      forest.entries.map fun entry => (entry.1, entry.2.sortKeys le) := by
  induction forest using Forest.induction with
  | nil => rfl
  | cons key value rest ih => rw [sortEach, entries, entries, List.map_cons, ih]

lemma Forest.Shuffled.sortEach {kind : Kind} {forest other : Forest σ κ kind}
    (h : forest.Shuffled other) : (forest.sortEach le).Shuffled (other.sortEach le) := by
  cases kind with
  | array =>
      obtain rfl := h
      rfl
  | object =>
      rw [Shuffled, entries_sortEach, entries_sortEach]
      exact List.Perm.map _ h

lemma Forest.distinctKeys_sortEach (le : κ → κ → Bool) {kind : Kind} (forest : Forest σ κ kind) :
    (forest.sortEach le).DistinctKeys ↔ forest.DistinctKeys := by
  cases kind with
  | array => exact Iff.rfl
  | object =>
      rw [DistinctKeys, DistinctKeys, entries_sortEach, List.map_map]
      rfl

/-- A property of every value, by the entries. -/
lemma Forest.distinctEach_iff {kind : Kind} (forest : Forest σ κ kind) :
    forest.DistinctEach ↔ ∀ entry ∈ forest.entries, entry.2.Distinct := by
  induction forest using Forest.induction with
  | nil => simp [DistinctEach, entries]
  | cons key value rest ih => simp [DistinctEach, entries, ih]

lemma Forest.sortedEach_iff {kind : Kind} (forest : Forest σ κ kind) :
    forest.SortedEach (Strictly le) ↔
      ∀ entry ∈ forest.entries, entry.2.Sorted (Strictly le) := by
  induction forest using Forest.induction with
  | nil => simp [SortedEach, entries]
  | cons key value rest ih => simp [SortedEach, entries, ih]

lemma Forest.Shuffled.mem_iff {kind : Kind} {forest other : Forest σ κ kind}
    (h : forest.Shuffled other) {entry : KeyOf κ kind × Tree σ κ} :
    entry ∈ forest.entries ↔ entry ∈ other.entries := by
  cases kind with
  | array =>
      obtain rfl := h
      exact Iff.rfl
  | object => exact List.Perm.mem_iff h

mutual

/-- Sorting is a reordering. -/
lemma Tree.reorders_sortKeys : ∀ tree : Tree σ κ, tree.Reorders (tree.sortKeys le)
  | .scalar _ => rfl
  | .node _ entries =>
      ⟨_, _, Forest.reordersEach_sortEach entries, Forest.shuffled_sorted le _, rfl⟩

lemma Forest.reordersEach_sortEach {kind : Kind} : ∀ forest : Forest σ κ kind,
    forest.ReordersEach (forest.sortEach le)
  | .nil => rfl
  | .cons _ value rest =>
      ⟨_, _, Tree.reorders_sortKeys value, Forest.reordersEach_sortEach rest, rfl⟩

end

/-- The keys stay where they are. -/
lemma Forest.ReordersEach.keys_eq {kind : Kind} : ∀ {forest other : Forest σ κ kind},
    forest.ReordersEach other → forest.entries.map Prod.fst = other.entries.map Prod.fst
  | .nil, _, h => by
      obtain rfl := h
      rfl
  | .cons key _ _, _, h => by
      obtain ⟨value', rest', -, hrest, rfl⟩ := h
      rw [entries, entries, List.map_cons, List.map_cons, hrest.keys_eq]

lemma Forest.ReordersEach.distinctKeys_iff {kind : Kind} {forest other : Forest σ κ kind}
    (h : forest.ReordersEach other) : forest.DistinctKeys ↔ other.DistinctKeys := by
  cases kind with
  | array => exact Iff.rfl
  | object => rw [DistinctKeys, DistinctKeys, h.keys_eq]

mutual

/-- A reordering neither makes duplicates nor removes them. -/
lemma Tree.Reorders.distinct_iff : ∀ {tree other : Tree σ κ}, tree.Reorders other →
    (tree.Distinct ↔ other.Distinct)
  | .scalar _, _, h => by
      obtain rfl := h
      exact Iff.rfl
  | .node _ _, _, h => by
      obtain ⟨between, out, hvalues, horder, rfl⟩ := h
      rw [Tree.Distinct, Tree.Distinct, hvalues.distinctKeys_iff, hvalues.distinctEach_iff,
        horder.distinctKeys_iff, Forest.distinctEach_iff, Forest.distinctEach_iff]
      simp only [horder.mem_iff]

lemma Forest.ReordersEach.distinctEach_iff {kind : Kind} : ∀ {forest other : Forest σ κ kind},
    forest.ReordersEach other → (forest.DistinctEach ↔ other.DistinctEach)
  | .nil, _, h => by
      obtain rfl := h
      exact Iff.rfl
  | .cons _ _ _, _, h => by
      obtain ⟨value', rest', hvalue, hrest, rfl⟩ := h
      rw [Forest.DistinctEach, Forest.DistinctEach, hvalue.distinct_iff, hrest.distinctEach_iff]

end

mutual

/-- Sorting forgets the order. -/
lemma Tree.Reorders.sortKeys_eq (hle : KeyOrder le) : ∀ {tree other : Tree σ κ},
    tree.Reorders other → tree.Distinct → other.sortKeys le = tree.sortKeys le
  | .scalar _, _, h, _ => by
      obtain rfl := h
      rfl
  | .node _ _, _, h, ⟨hkeys, heach⟩ => by
      obtain ⟨between, out, hvalues, horder, rfl⟩ := h
      have hsame := hvalues.sortEach_eq hle heach
      have hdistinct := hvalues.distinctKeys_iff.mp hkeys
      -- both are the increasing order of the same entries
      have hincreasing := Forest.increasing_sorted hle
        ((Forest.distinctKeys_sortEach le between).mpr hdistinct)
      have hincreasing' := Forest.increasing_sorted hle
        ((Forest.distinctKeys_sortEach le out).mpr (horder.distinctKeys_iff.mp hdistinct))
      have hshuffled := (Forest.shuffled_sorted le (between.sortEach le)).symm.trans
        (horder.sortEach.trans (Forest.shuffled_sorted le (out.sortEach le)))
      rw [Tree.sortKeys, Tree.sortKeys, ← hsame,
        hshuffled.eq_of_increasing hincreasing hincreasing']

lemma Forest.ReordersEach.sortEach_eq (hle : KeyOrder le) {kind : Kind} :
    ∀ {forest other : Forest σ κ kind}, forest.ReordersEach other → forest.DistinctEach →
      other.sortEach le = forest.sortEach le
  | .nil, _, h, _ => by
      obtain rfl := h
      rfl
  | .cons _ _ _, _, h, hdistinct => by
      obtain ⟨value', rest', hvalue', hrest', rfl⟩ := h
      obtain ⟨hvalue, hrest⟩ := hdistinct
      rw [Forest.sortEach, Forest.sortEach, hvalue'.sortKeys_eq hle hvalue,
        hrest'.sortEach_eq hle hrest]

end

mutual

lemma Tree.sorted_sortKeys (hle : KeyOrder le) : ∀ tree : Tree σ κ, tree.Distinct →
    (tree.sortKeys le).Sorted (Strictly le)
  | .scalar _, _ => trivial
  | .node _ entries, ⟨hkeys, heach⟩ => by
      refine ⟨Forest.increasing_sorted hle ((Forest.distinctKeys_sortEach le entries).mpr hkeys), ?_⟩
      have h := Forest.sortedEach_sortEach hle entries heach
      rw [Forest.sortedEach_iff] at h ⊢
      simpa only [(Forest.shuffled_sorted le (entries.sortEach le)).mem_iff] using h

lemma Forest.sortedEach_sortEach (hle : KeyOrder le) {kind : Kind} :
    ∀ forest : Forest σ κ kind, forest.DistinctEach → (forest.sortEach le).SortedEach (Strictly le)
  | .nil, _ => trivial
  | .cons _ value rest, h =>
      ⟨Tree.sorted_sortKeys hle value h.1, Forest.sortedEach_sortEach hle rest h.2⟩

end

mutual

/-- A sorted tree has no duplicates, and sorting leaves it as it is. -/
lemma Tree.Sorted.sortKeys_eq (hle : KeyOrder le) : ∀ {tree : Tree σ κ}, tree.Sorted (Strictly le) →
    tree.Distinct ∧ tree.sortKeys le = tree
  | .scalar _, _ => ⟨trivial, rfl⟩
  | .node _ _, ⟨hkeys, heach⟩ => by
      obtain ⟨hdistinct, hsame⟩ := Forest.SortedEach.sortEach_eq hle heach
      refine ⟨⟨hkeys.distinctKeys, hdistinct⟩, ?_⟩
      rw [Tree.sortKeys, hsame, Forest.sorted_of_increasing hle hkeys]

lemma Forest.SortedEach.sortEach_eq (hle : KeyOrder le) {kind : Kind} :
    ∀ {forest : Forest σ κ kind}, forest.SortedEach (Strictly le) →
      forest.DistinctEach ∧ forest.sortEach le = forest
  | .nil, _ => ⟨trivial, rfl⟩
  | .cons _ _ _, h => by
      obtain ⟨hvalue, hvalue'⟩ := Tree.Sorted.sortKeys_eq hle h.1
      obtain ⟨hrest, hrest'⟩ := Forest.SortedEach.sortEach_eq hle h.2
      exact ⟨⟨hvalue, hrest⟩, by rw [Forest.sortEach, hvalue', hrest']⟩

end

end Trees

end Lib
