import RustBinary.Lib.TreeOrder
import RustBinary.Core.Slice
import RustBinary.Cbor.Encoder

/-!
# Deterministic CBOR

The deterministic mode puts the entries of every object into the canonical order of their keys,
shorter keys first, and turns objects down that have one key twice.  The tree that is encoded
then does not depend on the order in which the entries came.
-/

namespace RustBinary.Cbor

open Lib Lib.Outcome

/-- `CborConfig`. -/
structure CborConfig where
  base : Config
  deterministic : Bool

/-! ## The canonical order -/

def canonicalCmp (left right : List UInt8) : Ordering :=
  (compare left.length right.length).then (compareOfLessAndEq left right)

/-- Shorter first, then bytewise. -/
def CanonicalLt (left right : List UInt8) : Prop :=
  left.length < right.length ∨ left.length = right.length ∧ left < right

/-- No later than. -/
def canonicalLe (left right : String) : Bool := (canonicalCmp (toUtf8 left) (toUtf8 right)).isLE

variable {σ : Type}

/-! ## Canonicalizing -/

/-- `windows(2).any(..)`: two neighbours have one key. -/
def hasDuplicates : List (String × Tree σ String) → Bool
  | first :: second :: rest => first.1 == second.1 || hasDuplicates (second :: rest)
  | _ => false

/-- What `canonicalize` does with a container whose values are canonical. -/
def arrange : {kind : Kind} → Forest σ String kind → Outcome Error (Forest σ String kind)
  | .array, items => .ok items
  | .object, map =>
      let entries := map.entries.mergeSort fun left right => canonicalLe left.1 right.1
      if hasDuplicates entries then
        .err (.cbor "deterministic maps cannot contain duplicate canonical keys")
      else .ok (.ofEntries entries)

mutual

/-- Recursively sorts object keys. -/
def canonicalize : Tree σ String → Outcome Error (Tree σ String)
  | .scalar value => .ok (.scalar value)
  | .node kind entries => do
      let entries ← canonicalizeEach entries
      let entries ← arrange entries
      .ok (.node kind entries)

def canonicalizeEach {kind : Kind} : Forest σ String kind → Outcome Error (Forest σ String kind)
  | .nil => .ok .nil
  | .cons key value rest => do
      let value ← canonicalize value
      let rest ← canonicalizeEach rest
      .ok (.cons key value rest)

end

/-- `CborConfig::encode_value`, of the tree that `to_value` builds. -/
def CborConfig.encodeValue (fromNextjson : NextjsonError → Error) (c : CborConfig)
    (value : Tree Leaf String) : Outcome Error (List UInt8) := do
  let value ← if c.deterministic then canonicalize value else .ok value
  match CborEncoder.finish fromNextjson value (.new ([] : List UInt8) c.base) with
  | (.ok _, encoder) => do
      c.base.enforceByteLimit encoder.writer.length
      .ok encoder.writer
  | (.err e, _) => .err e
  | (.panic, _) => .panic
  | (.diverge, _) => .diverge

/-! ## The order of keys -/

lemma canonicalCmp_isLE {left right : List UInt8} :
    (canonicalCmp left right).isLE ↔
      left.length < right.length ∨ left.length = right.length ∧ left ≤ right := by
  rw [canonicalCmp, Ordering.isLE_then_iff_or, Nat.compare_eq_lt, Nat.compare_eq_eq,
    isLE_compareOfLessAndEq List.le_antisymm List.not_le List.le_total]

lemma canonicalLe_iff {left right : String} :
    canonicalLe left right ↔ (toUtf8 left).length < (toUtf8 right).length ∨
      (toUtf8 left).length = (toUtf8 right).length ∧ toUtf8 left ≤ toUtf8 right :=
  canonicalCmp_isLE

/-- The order is total, and it tells keys apart. -/
lemma keyOrder_canonicalLe : KeyOrder canonicalLe where
  trans := by
    intro a b c hab hbc
    rw [canonicalLe_iff] at hab hbc ⊢
    rcases hab with hab | ⟨hab, hle⟩ <;> rcases hbc with hbc | ⟨hbc, hle'⟩
    · exact Or.inl (hab.trans hbc)
    · exact Or.inl (hab.trans_eq hbc)
    · exact Or.inl (hab.trans_lt hbc)
    · exact Or.inr ⟨hab.trans hbc, List.le_trans hle hle'⟩
  total := by
    intro a b
    rw [Bool.or_eq_true, canonicalLe_iff, canonicalLe_iff]
    rcases Nat.lt_trichotomy (toUtf8 a).length (toUtf8 b).length with h | h | h
    · exact Or.inl (Or.inl h)
    · exact (List.le_total (toUtf8 a) (toUtf8 b)).imp (fun hle => Or.inr ⟨h, hle⟩)
        fun hle => Or.inr ⟨h.symm, hle⟩
    · exact Or.inr (Or.inl h)
  antisymm := by
    intro a b hab hba
    rw [canonicalLe_iff] at hab hba
    rcases hab with hab | ⟨hab, hle⟩
    · omega
    · rcases hba with hba | ⟨-, hge⟩
      · omega
      · exact toUtf8_inj (List.le_antisymm hle hge)

lemma strictly_canonicalLe :
    Strictly canonicalLe = fun left right => CanonicalLt (toUtf8 left) (toUtf8 right) := by
  funext left right
  rw [Strictly, canonicalLe_iff, canonicalLe_iff, CanonicalLt, eq_iff_iff]
  constructor
  · rintro ⟨hlt | ⟨heq, hle⟩, hnot⟩
    · exact Or.inl hlt
    · refine Or.inr ⟨heq, List.not_le.mp fun hge => hnot (Or.inr ⟨heq.symm, hge⟩)⟩
  · rintro (hlt | ⟨heq, hlt⟩)
    · exact ⟨Or.inl hlt, by omega⟩
    · refine ⟨Or.inr ⟨heq, List.le_of_lt hlt⟩, ?_⟩
      rintro (hlt' | ⟨-, hge⟩)
      · omega
      · exact List.not_le.mpr hlt hge

/-! ## What canonicalizing does -/

/-- In an ordered list duplicates are neighbours. -/
lemma hasDuplicates_eq_false {entries : List (String × Tree σ String)}
    (h : entries.Pairwise fun left right => canonicalLe left.1 right.1 = true) :
    hasDuplicates entries = false ↔ (entries.map Prod.fst).Nodup := by
  induction entries with
  | nil => simp [hasDuplicates]
  | cons first rest ih =>
      obtain ⟨hfirst, hrest⟩ := List.pairwise_cons.mp h
      cases rest with
      | nil => simp [hasDuplicates]
      | cons second rest =>
          have hnodup : ((first :: second :: rest).map Prod.fst).Nodup ↔
              first.1 ∉ (second :: rest).map Prod.fst ∧ ((second :: rest).map Prod.fst).Nodup :=
            List.nodup_cons
          rw [hasDuplicates, Bool.or_eq_false_iff, ih hrest, hnodup, beq_eq_false_iff_ne,
            and_congr_left_iff]
          intro _
          constructor
          · intro hne hmem
            obtain ⟨third, hthird, heq⟩ := List.mem_map.mp hmem
            rcases List.mem_cons.mp hthird with rfl | hthird
            · exact hne heq.symm
            · -- the second key is between two equal ones
              have hlater := (List.pairwise_cons.mp hrest).1 third hthird
              rw [heq] at hlater
              exact hne (keyOrder_canonicalLe.antisymm _ _ (hfirst second List.mem_cons_self) hlater)
          · rintro hnotMem heq
            exact hnotMem (heq ▸ List.mem_cons_self)

lemma arrange_eq {kind : Kind} (entries : Forest σ String kind) :
    (entries.DistinctKeys → arrange entries = ok (entries.sorted canonicalLe)) ∧
      (¬ entries.DistinctKeys → arrange entries
        = err (.cbor "deterministic maps cannot contain duplicate canonical keys")) := by
  cases kind with
  | array => exact ⟨fun _ => rfl, fun h => absurd trivial h⟩
  | object =>
      have hsorted := List.pairwise_mergeSort
        (fun a b c => keyOrder_canonicalLe.trans a.1 b.1 c.1)
        (fun a b => keyOrder_canonicalLe.total a.1 b.1) entries.entries
      have hperm := (List.mergeSort_perm entries.entries fun left right =>
        canonicalLe left.1 right.1).map Prod.fst
      have hdup := (hasDuplicates_eq_false hsorted).trans hperm.nodup_iff
      constructor
      · intro h
        rw [arrange, if_neg (by rw [hdup.mpr h]; simp)]
        rfl
      · intro h
        rw [arrange, if_pos (by rw [← Bool.not_eq_false, hdup]; exact h)]

mutual

lemma canonicalize_of_distinct : ∀ tree : Tree σ String, tree.Distinct →
    canonicalize tree = ok (tree.sortKeys canonicalLe)
  | .scalar _, _ => rfl
  | .node kind entries, h => by
      obtain ⟨hkeys, heach⟩ := h
      rw [canonicalize, canonicalizeEach_of_distinct entries heach, ok_bind,
        (arrange_eq _).1 ((Forest.distinctKeys_sortEach canonicalLe entries).mpr hkeys), ok_bind]
      rfl

lemma canonicalizeEach_of_distinct {kind : Kind} : ∀ entries : Forest σ String kind,
    entries.DistinctEach → canonicalizeEach entries = ok (entries.sortEach canonicalLe)
  | .nil, _ => rfl
  | .cons key value rest, h => by
      obtain ⟨hvalue, hrest⟩ := h
      rw [canonicalizeEach, canonicalize_of_distinct value hvalue, ok_bind,
        canonicalizeEach_of_distinct rest hrest, ok_bind, Forest.sortEach]

end

mutual

/-- An object that has one key twice is turned down, wherever it is. -/
lemma canonicalize_of_not_distinct : ∀ tree : Tree σ String, ¬ tree.Distinct →
    canonicalize tree = err (.cbor "deterministic maps cannot contain duplicate canonical keys")
  | .scalar _, h => absurd trivial h
  | .node kind entries, h => by
      rw [canonicalize]
      by_cases heach : entries.DistinctEach
      · have hkeys : ¬ entries.DistinctKeys := fun hkeys => h ⟨hkeys, heach⟩
        rw [canonicalizeEach_of_distinct entries heach, ok_bind,
          (arrange_eq _).2 (mt (Forest.distinctKeys_sortEach canonicalLe entries).mp hkeys),
          err_bind]
      · rw [canonicalizeEach_of_not_distinct entries heach, err_bind]

lemma canonicalizeEach_of_not_distinct {kind : Kind} : ∀ entries : Forest σ String kind,
    ¬ entries.DistinctEach → canonicalizeEach entries
      = err (.cbor "deterministic maps cannot contain duplicate canonical keys")
  | .nil, h => absurd trivial h
  | .cons key value rest, h => by
      rw [canonicalizeEach]
      by_cases hvalue : value.Distinct
      · have hrest : ¬ rest.DistinctEach := fun hrest => h ⟨hvalue, hrest⟩
        rw [canonicalize_of_distinct value hvalue, ok_bind,
          canonicalizeEach_of_not_distinct rest hrest, err_bind]
      · rw [canonicalize_of_not_distinct value hvalue, err_bind]

end

lemma canonicalize_eq_ok {tree out : Tree σ String} :
    canonicalize tree = ok out ↔ tree.Distinct ∧ out = tree.sortKeys canonicalLe := by
  by_cases h : tree.Distinct
  · rw [canonicalize_of_distinct tree h, Outcome.ok.injEq]
    exact ⟨fun heq => ⟨h, heq.symm⟩, fun ⟨_, heq⟩ => heq.symm⟩
  · rw [canonicalize_of_not_distinct tree h]
    exact ⟨fun heq => absurd heq (by simp), fun ⟨hdistinct, _⟩ => absurd hdistinct h⟩

/-! ## The encoding -/

section Encoding

variable (fromNextjson : NextjsonError → Error) (base : Config) {tree other : Tree Leaf String}

lemma canonicalize_reorders {tree other : Tree σ String} (h : tree.Reorders other) :
    canonicalize other = canonicalize tree := by
  by_cases hdistinct : tree.Distinct
  · rw [canonicalize_of_distinct tree hdistinct,
      canonicalize_of_distinct other (h.distinct_iff.mp hdistinct),
      h.sortKeys_eq keyOrder_canonicalLe hdistinct]
  · rw [canonicalize_of_not_distinct tree hdistinct,
      canonicalize_of_not_distinct other (mt h.distinct_iff.mpr hdistinct)]

lemma canonicalize_twice (tree : Tree σ String) :
    (canonicalize tree >>= canonicalize) = canonicalize tree := by
  by_cases h : tree.Distinct
  · obtain ⟨hdistinct, hsame⟩ := (Tree.sorted_sortKeys keyOrder_canonicalLe tree h).sortKeys_eq
      keyOrder_canonicalLe
    rw [canonicalize_of_distinct tree h, ok_bind, canonicalize_of_distinct _ hdistinct, hsame]
  · rw [canonicalize_of_not_distinct tree h, err_bind]

/-- Deterministic encoding does not see the order of the entries.  What it writes is the
encoding, in the order as it is, of a tree that differs in nothing but this order and has the
keys of every object increasing; and canonicalizing once is enough. -/
theorem encodeValue_reorders (h : tree.Reorders other) :
    CborConfig.encodeValue fromNextjson ⟨base, true⟩ other
        = CborConfig.encodeValue fromNextjson ⟨base, true⟩ tree ∧
      (∀ bytes, CborConfig.encodeValue fromNextjson ⟨base, true⟩ tree = ok bytes →
        ∃ out, canonicalize tree = ok out ∧ tree.Reorders out ∧
          out.Sorted (fun left right => CanonicalLt (toUtf8 left) (toUtf8 right)) ∧
          CborConfig.encodeValue fromNextjson ⟨base, false⟩ out = ok bytes) ∧
      (canonicalize tree >>= canonicalize) = canonicalize tree := by
  refine ⟨?_, fun bytes hbytes => ?_, canonicalize_twice tree⟩
  · rw [CborConfig.encodeValue, CborConfig.encodeValue, if_pos rfl, if_pos rfl,
      canonicalize_reorders h]
  · rw [CborConfig.encodeValue, if_pos rfl, bind_eq_ok] at hbytes
    obtain ⟨out, hout, hbytes⟩ := hbytes
    obtain ⟨hdistinct, rfl⟩ := canonicalize_eq_ok.mp hout
    refine ⟨_, hout, tree.reorders_sortKeys, ?_, hbytes⟩
    rw [← strictly_canonicalLe]
    exact tree.sorted_sortKeys keyOrder_canonicalLe hdistinct

end Encoding

/-- Two objects with one pair of entries each way round. -/
theorem encodeValue_reorders_pair :
    let tree : Tree Leaf String := .node .object (.cons "bb" (.scalar (.scalar .null))
      (.cons "a" (.scalar (.scalar (.bool true))) .nil))
    let other : Tree Leaf String := .node .object (.cons "a" (.scalar (.scalar (.bool true)))
      (.cons "bb" (.scalar (.scalar .null)) .nil))
    CborConfig.encodeValue (fun _ => .custom "") ⟨.standard, true⟩ other
        = CborConfig.encodeValue (fun _ => .custom "") ⟨.standard, true⟩ tree ∧
      (canonicalize tree >>= canonicalize) = canonicalize tree := by
  intro tree other
  have h : tree.Reorders other := by
    refine ⟨_, _, ⟨_, _, rfl, ⟨_, _, rfl, rfl, rfl⟩, rfl⟩, ?_, rfl⟩
    exact List.Perm.swap _ _ _
  obtain ⟨hbytes, -, htwice⟩ := encodeValue_reorders (fun _ => .custom "") .standard h
  exact ⟨hbytes, htwice⟩

end RustBinary.Cbor
