import RustBinary.Ibl.Reconcile
import RustBinary.Lib.Halting
import Mathlib.Data.Finite.Prod
import Mathlib.Data.Fintype.Pi

/-!
# When peeling stops

A peel takes the contribution of a key away at the positions of that key, which need not include
the cell that was read, and may put single cells elsewhere.  A table has finitely many contents,
so the loop of `decode` ends exactly when it meets no table twice.

In a table made by insertions and deletions the keys that occur an odd number of times decide.
Unless the hashes of some of them collide, every peel makes one of them even.
-/

namespace RustBinary.Ibl

open Lib Lib.Outcome

namespace Iblt

/-- One peel, if the loop goes on. -/
def peel (t : Iblt) : Option Iblt :=
  match t.firstSingle with
  | some cell =>
      if splitmix64 cell.keySum ≠ cell.hashSum then none
      else if cell.count = 1 then some (t.delete cell.keySum cell.valueSum)
      else some (t.insert cell.keySum cell.valueSum)
  | none => none

end Iblt

/-! ## Rounds and peels -/

lemma decode_succ_returned_iff {fuel : ℕ} {t : Iblt} :
    (t.decode (fuel + 1)).Returned ↔ ∀ t', t.peel = some t' → (t'.decode fuel).Returned := by
  rw [Iblt.decode, Iblt.peel]
  cases t.firstSingle with
  | none =>
      dsimp only
      split <;> simp
  | some cell =>
      dsimp only
      split
      · simp
      · split
        · simp [bind_ok_returned]
        · simp [bind_ok_returned]

/-- The loop returns within `fuel` rounds when there are fewer than `fuel` peels. -/
lemma decode_returned_iff_after {fuel : ℕ} {t : Iblt} :
    (t.decode fuel).Returned ↔ after Iblt.peel fuel t = none := by
  induction fuel generalizing t with
  | zero =>
      rw [Iblt.decode, after]
      simp
  | succ fuel ih =>
      rw [decode_succ_returned_iff, after]
      cases t.peel with
      | none => simp
      | some t' => simp [ih]

lemma numCells_peel {t t' : Iblt} (h : t.peel = some t') : t'.numCells = t.numCells := by
  rw [Iblt.peel] at h
  cases hcell : t.firstSingle with
  | none =>
      rw [hcell] at h
      cases h
  | some cell =>
      rw [hcell] at h
      dsimp only at h
      split at h
      · cases h
      · split at h
        · cases h
          exact numCells_delete ..
        · cases h
          exact numCells_insert ..

instance : Finite Cell := by
  refine Finite.of_injective (β := Fin (2 ^ 32) × Fin (2 ^ 64) × Fin (2 ^ 64) × Fin (2 ^ 64))
    (fun cell => (cell.count.toBitVec.toFin, cell.keySum.toFin, cell.valueSum.toFin,
      cell.hashSum.toFin)) ?_
  intro a b h
  simp only [Prod.mk.injEq] at h
  obtain ⟨hcount, hkey, hvalue, hhash⟩ := h
  exact Cell.ext (Int32.toBitVec_inj.mp (BitVec.toFin_inj.mp hcount)) (UInt64.toFin_inj.mp hkey)
    (UInt64.toFin_inj.mp hvalue) (UInt64.toFin_inj.mp hhash)

/-- There are finitely many tables of one size. -/
lemma finite_tables (n : ℕ) : Finite {t : Iblt // t.numCells = n} := by
  refine Finite.of_injective (β := Fin n → Cell) (fun t i => t.1.cell i) ?_
  rintro ⟨⟨cells, hpos⟩, hn⟩ ⟨⟨cells', hpos'⟩, hn'⟩ h
  have hcells : cells = cells' := by
    refine List.ext_getElem (hn.trans hn'.symm) fun q hq hq' => ?_
    have hcell : cells.getD q 0 = cells'.getD q 0 := congrFun h ⟨q, hn ▸ hq⟩
    rwa [List.getD_eq_getElem?_getD, List.getD_eq_getElem?_getD,
      List.getElem?_eq_getElem hq, List.getElem?_eq_getElem hq'] at hcell
  subst hcells
  rfl

/-! ## Keys that occur an odd number of times -/

/-- The exclusive or of all of `xs`. -/
def xorAll (xs : List UInt64) : UInt64 := xs.foldr (· ^^^ ·) 0

/-- One occurrence more, counted modulo two. -/
def toggle (key : UInt64) (keys : List UInt64) : List UInt64 :=
  if key ∈ keys then keys.erase key else key :: keys

/-- The keys that occur an odd number of times, each once. -/
def oddKeys (keys : List UInt64) : List UInt64 := keys.foldr toggle []

@[simp] lemma xorAll_nil : xorAll [] = 0 := rfl

@[simp] lemma xorAll_cons (x : UInt64) (xs : List UInt64) : xorAll (x :: xs) = x ^^^ xorAll xs := rfl

lemma xorAll_append (xs ys : List UInt64) : xorAll (xs ++ ys) = xorAll xs ^^^ xorAll ys := by
  induction xs with
  | nil => simp
  | cons x xs ih => rw [List.cons_append, xorAll_cons, xorAll_cons, ih, UInt64.xor_assoc]

lemma xorAll_perm {xs ys : List UInt64} (h : xs.Perm ys) : xorAll xs = xorAll ys := by
  induction h with
  | nil => rfl
  | cons x _ ih => rw [xorAll_cons, xorAll_cons, ih]
  | swap x y l =>
      rw [xorAll_cons, xorAll_cons, xorAll_cons, xorAll_cons, ← UInt64.xor_assoc,
        ← UInt64.xor_assoc, UInt64.xor_comm y x]
  | trans _ _ ih₁ ih₂ => exact ih₁.trans ih₂

@[simp] lemma oddKeys_nil : oddKeys [] = [] := rfl

@[simp] lemma oddKeys_cons (key : UInt64) (keys : List UInt64) :
    oddKeys (key :: keys) = toggle key (oddKeys keys) := rfl

lemma nodup_toggle {key : UInt64} {keys : List UInt64} (h : keys.Nodup) :
    (toggle key keys).Nodup := by
  rw [toggle]
  split
  · exact h.erase key
  · next hmem => exact List.nodup_cons.mpr ⟨hmem, h⟩

lemma nodup_oddKeys (keys : List UInt64) : (oddKeys keys).Nodup := by
  induction keys with
  | nil => exact List.nodup_nil
  | cons key keys ih => exact nodup_toggle ih

lemma mem_toggle {key k : UInt64} {keys : List UInt64} (h : keys.Nodup) :
    k ∈ toggle key keys ↔ (k ∈ keys ↔ k ≠ key) := by
  rw [toggle]
  split
  · next hmem =>
      rw [h.mem_erase_iff]
      constructor
      · rintro ⟨hne, hk⟩
        exact ⟨fun _ => hne, fun _ => hk⟩
      · intro hiff
        by_cases hk : k = key
        · subst hk
          exact absurd rfl (hiff.mp hmem)
        · exact ⟨hk, hiff.mpr hk⟩
  · next hmem =>
      rw [List.mem_cons]
      constructor
      · rintro (rfl | hk)
        · exact ⟨fun hk => absurd hk hmem, fun hne => absurd rfl hne⟩
        · exact ⟨fun _ heq => hmem (heq ▸ hk), fun _ => hk⟩
      · intro hiff
        by_cases hk : k = key
        · exact .inl hk
        · exact .inr (hiff.mpr hk)

lemma mem_oddKeys {key : UInt64} {keys : List UInt64} :
    key ∈ oddKeys keys ↔ keys.count key % 2 = 1 := by
  induction keys with
  | nil => simp
  | cons k keys ih =>
      rw [oddKeys_cons, mem_toggle (nodup_oddKeys keys), ih]
      by_cases hk : key = k
      · subst hk
        rw [List.count_cons_self]
        simp only [ne_eq, not_true_eq_false, iff_false]
        omega
      · rw [List.count_cons_of_ne (Ne.symm hk)]
        simp [hk]

/-- Pairs of equal keys cancel, in every sum that is made with exclusive or. -/
lemma xorAll_map_oddKeys (f : UInt64 → UInt64) (keys : List UInt64) :
    xorAll ((oddKeys keys).map f) = xorAll (keys.map f) := by
  induction keys with
  | nil => rfl
  | cons key keys ih =>
      rw [oddKeys_cons, List.map_cons, xorAll_cons, ← ih, toggle]
      split
      · next hmem =>
          rw [xorAll_perm ((List.perm_cons_erase hmem).map f), List.map_cons, xorAll_cons,
            ← UInt64.xor_assoc, UInt64.xor_self, UInt64.zero_xor]
      · rfl

lemma length_oddKeys (keys : List UInt64) : (oddKeys keys).length % 2 = keys.length % 2 := by
  induction keys with
  | nil => rfl
  | cons key keys ih =>
      rw [oddKeys_cons, toggle]
      split
      · next hmem =>
          have hpos := List.length_pos_of_mem hmem
          rw [List.length_erase_of_mem hmem, List.length_cons]
          omega
      · rw [List.length_cons, List.length_cons]
        omega

lemma length_oddKeys_le (keys : List UInt64) : (oddKeys keys).length ≤ keys.length := by
  induction keys with
  | nil => exact Nat.le_refl _
  | cons key keys ih =>
      rw [oddKeys_cons, toggle]
      split
      · rw [List.length_cons]
        exact (List.length_erase_le).trans (ih.trans (Nat.le_succ _))
      · rw [List.length_cons, List.length_cons]
        omega

/-! ## The keys of a cell -/

/-- `cell` is what `keys` leave behind, counted modulo two. -/
structure Spans (cell : Cell) (keys : List UInt64) : Prop where
  keySum_eq : cell.keySum = xorAll keys
  hashSum_eq : cell.hashSum = xorAll (keys.map splitmix64)
  count_mod : cell.count.toBitVec.toNat % 2 = keys.length % 2

lemma spans_zero : Spans 0 [] := ⟨rfl, rfl, rfl⟩

lemma spans_single (key value : UInt64) : Spans (Cell.single key value) [key] :=
  ⟨UInt64.xor_zero.symm, UInt64.xor_zero.symm, rfl⟩

lemma Spans.add {c d : Cell} {keys keys' : List UInt64} (hc : Spans c keys) (hd : Spans d keys') :
    Spans (c + d) (keys ++ keys') where
  keySum_eq := by
    rw [xorAll_append, ← hc.keySum_eq, ← hd.keySum_eq]
    rfl
  hashSum_eq := by
    rw [List.map_append, xorAll_append, ← hc.hashSum_eq, ← hd.hashSum_eq]
    rfl
  count_mod := by
    have hsum : (c + d).count.toBitVec = c.count.toBitVec + d.count.toBitVec := rfl
    rw [hsum, BitVec.toNat_add, List.length_append]
    have := hc.count_mod
    have := hd.count_mod
    omega

lemma Spans.sub {c d : Cell} {keys keys' : List UInt64} (hc : Spans c keys) (hd : Spans d keys') :
    Spans (c - d) (keys ++ keys') where
  keySum_eq := by
    rw [xorAll_append, ← hc.keySum_eq, ← hd.keySum_eq]
    rfl
  hashSum_eq := by
    rw [List.map_append, xorAll_append, ← hc.hashSum_eq, ← hd.hashSum_eq]
    rfl
  count_mod := by
    have hsum : (c - d).count.toBitVec = c.count.toBitVec - d.count.toBitVec := rfl
    rw [hsum, BitVec.toNat_sub, List.length_append]
    have := hc.count_mod
    have := hd.count_mod
    have := d.count.toBitVec.isLt
    omega

/-- The key of an element, once for each of its positions that is `q`. -/
def touched (numCells q : ℕ) (entry : Pair) : List UInt64 :=
  (positionSeeds.filter fun seed => position entry.1 seed numCells = q).map fun _ => entry.1

lemma spans_contribution (numCells q : ℕ) (entry : Pair) :
    Spans (contribution numCells entry q) (touched numCells q entry) := by
  rw [contribution, touched]
  generalize positionSeeds = seeds
  induction seeds with
  | nil => exact spans_zero
  | cons seed seeds ih =>
      rw [List.map_cons, List.sum_cons]
      by_cases hq : position entry.1 seed numCells = q
      · rw [if_pos hq, List.filter_cons_of_pos (by simpa using hq), List.map_cons]
        exact (spans_single entry.1 entry.2).add ih
      · rw [if_neg hq, List.filter_cons_of_neg (by simpa using hq), zero_add]
        exact ih

lemma spans_sketch (numCells q : ℕ) (entries : List Pair) :
    Spans (Sketch.sketch (contribution numCells) entries q)
      (entries.flatMap (touched numCells q)) := by
  induction entries with
  | nil => exact spans_zero
  | cons entry entries ih =>
      rw [Sketch.sketch_cons, Pi.add_apply, List.flatMap_cons]
      exact (spans_contribution numCells q entry).add ih

lemma Encodes.spans {numCells : ℕ} {A B : List Pair} {t : Iblt} (h : Encodes numCells A B t)
    (q : ℕ) : Spans (t.cell q) ((A ++ B).flatMap (touched numCells q)) := by
  rw [h.cell_eq, Sketch.difference, Pi.sub_apply, List.flatMap_append]
  exact (spans_sketch numCells q A).sub (spans_sketch numCells q B)

/-- Each element touches a cell as often as the others with its key. -/
lemma count_touched (numCells q : ℕ) (key : UInt64) (entries : List Pair) :
    (entries.flatMap (touched numCells q)).count key =
      (touched numCells q (key, 0)).length * (entries.map Prod.fst).count key := by
  induction entries with
  | nil => simp
  | cons entry entries ih =>
      rw [List.flatMap_cons, List.count_append, ih, List.map_cons, touched]
      by_cases hk : entry.1 = key
      · subst hk
        rw [List.count_cons_self, Nat.mul_succ, List.map_const', List.count_replicate_self, touched,
          List.length_map, Nat.add_comm]
      · rw [List.count_cons_of_ne hk, List.map_const', List.count_replicate]
        simp [hk]

/-- Among `keys`, a single key is told by its hash. -/
def NoCollision (keys : List UInt64) : Prop :=
  ∀ O : List UInt64, O.Nodup → O ⊆ keys → O.length % 2 = 1 →
    splitmix64 (xorAll O) = xorAll (O.map splitmix64) → O.length = 1

lemma NoCollision.mono {keys keys' : List UInt64} (h : NoCollision keys) (hsub : keys' ⊆ keys) :
    NoCollision keys' := fun O hO hmem => h O hO (List.Subset.trans hmem hsub)

section Peel

variable {n : ℕ} {A B : List Pair} {t t' : Iblt} {cell : Cell}

/-- What is peeled is a key that occurs an odd number of times. -/
lemma keySum_mem_oddKeys (henc : Encodes n A B t)
    (hcoll : NoCollision (oddKeys ((A ++ B).map Prod.fst))) (hcell : t.firstSingle = some cell)
    (hhash : splitmix64 cell.keySum = cell.hashSum) :
    cell.keySum ∈ oddKeys ((A ++ B).map Prod.fst) := by
  obtain ⟨q, hq, hget⟩ := List.mem_iff_getElem.mp (List.mem_of_find?_eq_some hcell)
  have hspans := henc.spans q
  rw [Iblt.cell, List.getD_eq_getElem?_getD, List.getElem?_eq_getElem hq, hget] at hspans
  obtain ⟨hkey, hsum, hcount⟩ := hspans
  dsimp only [Option.getD_some] at hkey hsum hcount
  generalize htouched : (A ++ B).flatMap (touched n q) = touches at hkey hsum hcount
  have hsub : oddKeys touches ⊆ oddKeys ((A ++ B).map Prod.fst) := by
    intro key hmem
    rw [mem_oddKeys, ← htouched, count_touched, Nat.mul_mod] at hmem
    rw [mem_oddKeys]
    rcases Nat.mod_two_eq_zero_or_one (((A ++ B).map Prod.fst).count key) with h | h
    · rw [h, Nat.mul_zero] at hmem
      cases hmem
    · exact h
  have hodd : (oddKeys touches).length % 2 = 1 := by
    rw [length_oddKeys, ← hcount]
    rcases firstSingle_count hcell with h | h
    · rw [h]
      rfl
    · rw [h]
      rfl
  have hxor : xorAll (oddKeys touches) = cell.keySum := by
    have hmap := xorAll_map_oddKeys id touches
    rw [List.map_id, List.map_id] at hmap
    rw [hmap, hkey]
  have hone : (oddKeys touches).length = 1 := by
    refine hcoll _ (nodup_oddKeys touches) hsub hodd ?_
    rw [hxor, hhash, hsum, xorAll_map_oddKeys]
  obtain ⟨key, heq⟩ := List.length_eq_one_iff.mp hone
  rw [heq, xorAll_cons, xorAll_nil, UInt64.xor_zero] at hxor
  rw [← hxor]
  exact hsub (heq ▸ List.mem_singleton_self key)

lemma Encodes.peel (henc : Encodes n A B t) (h : t.peel = some t') :
    ∃ cell : Cell, t.firstSingle = some cell ∧ splitmix64 cell.keySum = cell.hashSum ∧
      ∃ A' B', Encodes n A' B' t' ∧
        ((A' ++ B').map Prod.fst).Perm (cell.keySum :: (A ++ B).map Prod.fst) := by
  rw [Iblt.peel] at h
  cases hcell : t.firstSingle with
  | none =>
      rw [hcell] at h
      cases h
  | some cell =>
      rw [hcell] at h
      dsimp only at h
      split at h
      · cases h
      · next hhash =>
          refine ⟨cell, rfl, not_not.mp hhash, ?_⟩
          split at h
          · cases h
            refine ⟨A, (cell.keySum, cell.valueSum) :: B, ⟨?_, ?_⟩, ?_⟩
            · rw [numCells_delete, henc.numCells_eq]
            · rw [cell_delete, henc.numCells_eq, henc.cell_eq, Sketch.difference,
                Sketch.difference, Sketch.sketch_cons]
              abel
            · exact List.perm_middle.map Prod.fst
          · cases h
            refine ⟨(cell.keySum, cell.valueSum) :: A, B, ⟨?_, ?_⟩, ?_⟩
            · rw [numCells_insert, henc.numCells_eq]
            · rw [cell_insert, henc.numCells_eq, henc.cell_eq, Sketch.difference,
                Sketch.difference, Sketch.sketch_cons]
              abel
            · exact List.Perm.refl _

lemma oddKeys_perm {keys keys' : List UInt64} (h : keys.Perm keys') :
    (oddKeys keys).Perm (oddKeys keys') := by
  refine (List.perm_ext_iff_of_nodup (nodup_oddKeys _) (nodup_oddKeys _)).mpr fun key => ?_
  rw [mem_oddKeys, mem_oddKeys, h.count_eq]

/-- Without collisions there are at most as many peels as keys. -/
lemma after_peel_of_noCollision {rounds : ℕ} (henc : Encodes n A B t)
    (hcoll : NoCollision (oddKeys ((A ++ B).map Prod.fst)))
    (hrounds : (oddKeys ((A ++ B).map Prod.fst)).length < rounds) :
    after Iblt.peel rounds t = none := by
  induction rounds generalizing A B t with
  | zero => exact absurd hrounds (Nat.not_lt_zero _)
  | succ rounds ih =>
      rw [after]
      cases hpeel : t.peel with
      | none => rfl
      | some t' =>
          obtain ⟨cell, hcell, hhash, A', B', henc', hperm⟩ := henc.peel hpeel
          have hmem := keySum_mem_oddKeys henc hcoll hcell hhash
          have herase : (oddKeys ((A' ++ B').map Prod.fst)).Perm
              ((oddKeys ((A ++ B).map Prod.fst)).erase cell.keySum) := by
            refine (oddKeys_perm hperm).trans ?_
            rw [oddKeys_cons, toggle, if_pos hmem]
          refine ih henc' (hcoll.mono ?_) ?_
          · exact List.Subset.trans herase.subset List.erase_subset
          · have hpos := List.length_pos_of_mem hmem
            rw [herase.length_eq, List.length_erase_of_mem hmem]
            omega

end Peel

/-- The hash of one key of two tells it. -/
lemma noCollision_of_length_le {keys : List UInt64} (h : keys.length ≤ 2) : NoCollision keys := by
  intro O hO hsub hodd _
  have hle : O.length ≤ keys.length := (hO.subperm hsub).length_le
  omega

/-- Two elements of one side and one of the other.  The exclusive or of the keys is a fourth key,
and that of their hashes its hash. -/
def ours : List Pair := [(0x85e67f8d137dc50f, 0), (0x1e5241858701df6d, 0)]

def others : List Pair := [(0x9e5241838701df75, 0)]

/-- Both cells of the difference. -/
def stuck : Iblt where
  cells := (encodeSet ours 2).cells.zipWith (· - ·) (encodeSet others 2).cells
  pos := by decide +kernel

end RustBinary.Ibl
