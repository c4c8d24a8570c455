import RustBinary.Ibl.Table

/-!
# The algebra of tables

Insertions and deletions act on the cells by the group of the cells, so that their order does not
matter and what is put in comes out again; what two sets have in common cancels in a difference.
The counts of a set do not leave their words as long as the set has fewer than `2 ^ 29` elements:
the build that checks its additions comes to the same cells.
-/

namespace RustBinary.Ibl

open Lib Lib.Outcome

/-! ## Updates -/

/-- A call that changes a table. -/
inductive Update where
  | insert (entry : Pair)
  | delete (entry : Pair)
deriving DecidableEq, Repr

/-- The table after a call. -/
def Update.apply (t : Iblt) : Update → Iblt
  | .insert entry => t.insert entry.1 entry.2
  | .delete entry => t.delete entry.1 entry.2

/-- The table after several calls. -/
def Iblt.updates (t : Iblt) (us : List Update) : Iblt := us.foldl Update.apply t

/-- What a call adds to the cells. -/
def Update.contribution (numCells : ℕ) : Update → ℕ → Cell
  | .insert entry => Ibl.contribution numCells entry
  | .delete entry => -Ibl.contribution numCells entry

lemma Update.numCells_apply (t : Iblt) (u : Update) : (u.apply t).numCells = t.numCells := by
  cases u with
  | insert entry => exact numCells_insert t entry.1 entry.2
  | delete entry => exact numCells_delete t entry.1 entry.2

lemma Update.cell_apply (t : Iblt) (u : Update) :
    (u.apply t).cell = t.cell + u.contribution t.numCells := by
  cases u with
  | insert entry => exact cell_insert t entry.1 entry.2
  | delete entry => exact (cell_delete t entry.1 entry.2).trans (sub_eq_add_neg _ _)

lemma numCells_updates (t : Iblt) (us : List Update) : (t.updates us).numCells = t.numCells := by
  induction us generalizing t with
  | nil => rfl
  | cons u us ih => exact (ih (u.apply t)).trans (u.numCells_apply t)

/-- Calls add the sketch of what they contribute. -/
lemma cell_updates (t : Iblt) (us : List Update) :
    (t.updates us).cell = t.cell + Sketch.sketch (Update.contribution t.numCells) us := by
  induction us generalizing t with
  | nil => exact (add_zero _).symm
  | cons u us ih =>
      have hrest := ih (u.apply t)
      rw [u.numCells_apply, u.cell_apply, add_assoc, ← Sketch.sketch_cons] at hrest
      exact hrest

lemma encodeSet_eq_updates (entries : List Pair) (n : ℕ) :
    encodeSet entries n = (Iblt.new n).updates (entries.map Update.insert) := by
  rw [encodeSet, Iblt.updates, List.foldl_map]
  rfl

/-- The order of the calls does not matter. -/
lemma updates_perm {us vs : List Update} (h : us.Perm vs) (t : Iblt) :
    t.updates us = t.updates vs := by
  refine Iblt.ext_cell ?_ ?_
  · rw [numCells_updates, numCells_updates]
  · rw [cell_updates, cell_updates, Sketch.sketch_perm h]

/-- A deletion takes out what an insertion has put in. -/
lemma updates_cancel (t : Iblt) (entry : Pair) (us : List Update) :
    t.updates (.insert entry :: .delete entry :: us) = t.updates us := by
  refine Iblt.ext_cell ?_ ?_
  · rw [numCells_updates, numCells_updates]
  · rw [cell_updates, cell_updates, Sketch.sketch_cons, Sketch.sketch_cons, Update.contribution,
      Update.contribution, add_neg_cancel_left]

/-- What two collections have in common cancels in the difference. -/
lemma subtract_common {S T C U V : List Pair} (n : ℕ) (hU : U.Perm (S ++ C)) (hV : V.Perm (T ++ C)) :
    (encodeSet U n).subtract (encodeSet V n) = (encodeSet S n).subtract (encodeSet T n) := by
  obtain ⟨d, hd⟩ := exists_subtract U V n
  obtain ⟨e, he⟩ := exists_subtract S T n
  have hdifference : Sketch.difference (contribution (max n 1)) U V =
      Sketch.difference (contribution (max n 1)) S T := by
    rw [Sketch.difference, Sketch.difference, Sketch.sketch_perm hU, Sketch.sketch_perm hV,
      Sketch.sketch_append, Sketch.sketch_append, add_sub_add_right_eq_sub]
  have hencodes := encodes_of_subtract hd
  rw [hd, he]
  exact congrArg Outcome.ok
    (Encodes.unique ⟨hencodes.numCells_eq, hencodes.cell_eq.trans hdifference⟩
      (encodes_of_subtract he))

/-! ## Checked additions -/

/-- An `i32`. -/
def FitsI32 (value : ℤ) : Prop := -2 ^ 31 ≤ value ∧ value < 2 ^ 31

instance (value : ℤ) : Decidable (FitsI32 value) := inferInstanceAs (Decidable (_ ∧ _))

/-- `left + right`, which aborts when it overflows. -/
def addChecked (left right : Int32) : Outcome Error Int32 :=
  if FitsI32 (left.toInt + right.toInt) then .ok (left + right) else .panic

/-- `left - right`, which aborts when it overflows. -/
def subChecked (left right : Int32) : Outcome Error Int32 :=
  if FitsI32 (left.toInt - right.toInt) then .ok (left - right) else .panic

/-- The loop of `insert` over the seeds. -/
def insertChecked (key value : UInt64) : List UInt64 → List Cell → Outcome Error (List Cell)
  | [], cells => .ok cells
  | seed :: seeds, cells => do
      let cell ← orPanic cells[position key seed cells.length]?
      let count ← addChecked cell.count 1
      insertChecked key value seeds (cells.set (position key seed cells.length)
        { count := count
          keySum := cell.keySum ^^^ key
          valueSum := cell.valueSum ^^^ value
          hashSum := cell.hashSum ^^^ splitmix64 key })

/-- The loop of `encode_set`. -/
def encodeSetChecked : List Pair → List Cell → Outcome Error (List Cell)
  | [], cells => .ok cells
  | entry :: entries, cells => do
      let cells ← insertChecked entry.1 entry.2 positionSeeds cells
      encodeSetChecked entries cells

/-- The loop of `subtract`. -/
def subtractChecked : List Cell → List Cell → Outcome Error (List Cell)
  | left :: lefts, right :: rights => do
      let count ← subChecked left.count right.count
      let cells ← subtractChecked lefts rights
      .ok
        ({ count := count
           keySum := left.keySum ^^^ right.keySum
           valueSum := left.valueSum ^^^ right.valueSum
           hashSum := left.hashSum ^^^ right.hashSum } :: cells)
  | _, _ => .ok []

/-- No count is negative or above `bound`. -/
def Counted (bound : ℕ) (cells : List Cell) : Prop :=
  ∀ cell ∈ cells, 0 ≤ cell.count.toInt ∧ cell.count.toInt ≤ bound

lemma Counted.mono {bound bound' : ℕ} {cells : List Cell} (h : Counted bound cells)
    (hle : bound ≤ bound') : Counted bound' cells := by
  intro cell hcell
  have := h cell hcell
  omega

lemma toInt_one : (1 : Int32).toInt = 1 := by decide

lemma toInt_add_one {count : Int32} (h : FitsI32 (count.toInt + 1)) :
    (count + 1).toInt = count.toInt + 1 := by
  obtain ⟨hlow, hhigh⟩ := h
  rw [Int32.toInt_add, toInt_one]
  exact Int.bmod_eq_of_le (by omega) (by omega)

lemma insertChecked_eq (key value : UInt64) {seeds : List UInt64} {bound : ℕ} {cells : List Cell}
    (hpos : 0 < cells.length) (hcells : Counted bound cells)
    (hbound : bound + seeds.length < 2 ^ 31) :
    ∃ after, insertChecked key value seeds cells = .ok after ∧
      after = seeds.foldl (fun cells seed =>
        cells.modify (position key seed cells.length) (· + Cell.single key value)) cells ∧
      Counted (bound + seeds.length) after := by
  induction seeds generalizing bound cells with
  | nil => exact ⟨cells, rfl, rfl, hcells⟩
  | cons seed seeds ih =>
      have hlt := position_lt key seed hpos
      obtain ⟨cell, hget⟩ : ∃ cell, cells[position key seed cells.length]? = some cell :=
        ⟨_, List.getElem?_eq_getElem hlt⟩
      have hcell := hcells cell (List.mem_of_getElem? hget)
      rw [List.length_cons] at hbound
      have hfits : FitsI32 (cell.count.toInt + (1 : Int32).toInt) := by
        rw [FitsI32, toInt_one]
        omega
      have hsingle : (⟨cell.count + 1, cell.keySum ^^^ key, cell.valueSum ^^^ value,
          cell.hashSum ^^^ splitmix64 key⟩ : Cell) = cell + Cell.single key value := rfl
      have hset : cells.set (position key seed cells.length) (cell + Cell.single key value) =
          cells.modify (position key seed cells.length) (· + Cell.single key value) := by
        have : Inhabited Cell := ⟨0⟩
        rw [List.modify_eq_set, hget]
        rfl
      have hcount : (cell + Cell.single key value).count.toInt = cell.count.toInt + 1 :=
        toInt_add_one (toInt_one ▸ hfits)
      have hnext : Counted (bound + 1)
          (cells.set (position key seed cells.length) (cell + Cell.single key value)) := by
        intro other hother
        rcases List.mem_or_eq_of_mem_set hother with hold | rfl
        · have := hcells other hold
          omega
        · rw [hcount]
          omega
      obtain ⟨after, hrun, hafter, hcounted⟩ := ih (by rw [List.length_set]; exact hpos) hnext
        (by omega)
      refine ⟨after, ?_, ?_, ?_⟩
      · rw [insertChecked, hget, orPanic, ok_bind, addChecked, if_pos hfits, ok_bind, hsingle]
        exact hrun
      · rw [hafter, hset]
        rfl
      · rw [List.length_cons]
        exact hcounted.mono (by omega)

/-- The checked build comes to the cells of the set, and each count is the number of additions. -/
lemma encodeSetChecked_eq {entries : List Pair} {bound : ℕ} {t : Iblt} (ht : Counted bound t.cells)
    (hbound : bound + 3 * entries.length < 2 ^ 31) :
    encodeSetChecked entries t.cells = .ok (t.updates (entries.map Update.insert)).cells ∧
      Counted (bound + 3 * entries.length) (t.updates (entries.map Update.insert)).cells := by
  induction entries generalizing bound t with
  | nil => exact ⟨rfl, ht⟩
  | cons entry entries ih =>
      rw [List.length_cons] at hbound ⊢
      have hseeds : bound + positionSeeds.length < 2 ^ 31 := by
        rw [show positionSeeds.length = 3 from rfl]
        omega
      obtain ⟨after, hrun, hafter, hcounted⟩ := insertChecked_eq entry.1 entry.2 t.pos ht hseeds
      obtain rfl : after = (t.insert entry.1 entry.2).cells := hafter
      have hnext : bound + positionSeeds.length + 3 * entries.length < 2 ^ 31 := by
        rw [show positionSeeds.length = 3 from rfl]
        omega
      obtain ⟨hrest, hcells⟩ := ih hcounted hnext
      refine ⟨?_, hcells.mono ?_⟩
      · rw [encodeSetChecked, hrun, ok_bind]
        exact hrest
      · rw [show positionSeeds.length = 3 from rfl]
        omega

lemma counted_new (n : ℕ) : Counted 0 (Iblt.new n).cells := by
  intro cell hcell
  obtain rfl := List.eq_of_mem_replicate hcell
  decide

lemma subtractChecked_eq {bound : ℕ} {lefts rights : List Cell} (hbound : bound < 2 ^ 31)
    (hlefts : Counted bound lefts) (hrights : Counted bound rights) :
    subtractChecked lefts rights = .ok (lefts.zipWith (· - ·) rights) := by
  induction lefts generalizing rights with
  | nil => rfl
  | cons left lefts ih =>
      cases rights with
      | nil => rfl
      | cons right rights =>
          have hleft := hlefts left List.mem_cons_self
          have hright := hrights right List.mem_cons_self
          have hfits : FitsI32 (left.count.toInt - right.count.toInt) := by
            rw [FitsI32]
            omega
          have hrest := ih (fun cell hcell => hlefts cell (List.mem_cons_of_mem _ hcell))
            (fun cell hcell => hrights cell (List.mem_cons_of_mem _ hcell))
          rw [subtractChecked, subChecked, if_pos hfits, ok_bind, hrest]
          rfl

/-- Below `2 ^ 29` elements the counts of a set stay within their words. -/
lemma encodeSet_counted {entries : List Pair} (n : ℕ) (h : entries.length < 2 ^ 29) :
    encodeSetChecked entries (Iblt.new n).cells = .ok (encodeSet entries n).cells ∧
      Counted (3 * entries.length) (encodeSet entries n).cells := by
  have hbound : 0 + 3 * entries.length < 2 ^ 31 := by omega
  have hchecked := encodeSetChecked_eq (counted_new n) hbound
  rwa [← encodeSet_eq_updates, Nat.zero_add] at hchecked

/-- The algebra of tables of any size: the order of insertions and deletions does not matter, a
deletion takes out what an insertion has put in, what two sets have in common cancels in the
difference, and the counts of sets of fewer than `2 ^ 29` elements, and of their differences, stay
within their words. -/
theorem table_algebra (n : ℕ) :
    (∀ (t : Iblt) (us vs : List Update), us.Perm vs → t.updates us = t.updates vs) ∧
    (∀ entries entries' : List Pair, entries.Perm entries' →
      encodeSet entries n = encodeSet entries' n) ∧
    (∀ (t : Iblt) (entry : Pair) (us : List Update),
      ((t.insert entry.1 entry.2).updates us).delete entry.1 entry.2 = t.updates us) ∧
    (∀ S T C U V : List Pair, U.Perm (S ++ C) → V.Perm (T ++ C) →
      (encodeSet U n).subtract (encodeSet V n) = (encodeSet S n).subtract (encodeSet T n)) ∧
    (∀ entries : List Pair, entries.length < 2 ^ 29 →
      encodeSetChecked entries (Iblt.new n).cells = .ok (encodeSet entries n).cells ∧
        Counted (3 * entries.length) (encodeSet entries n).cells) ∧
    (∀ S T : List Pair, S.length < 2 ^ 29 → T.length < 2 ^ 29 →
      ∃ d, (encodeSet S n).subtract (encodeSet T n) = .ok d ∧
        subtractChecked (encodeSet S n).cells (encodeSet T n).cells = .ok d.cells) := by
  refine ⟨fun t us vs h => updates_perm h t, fun entries entries' h => ?_, fun t entry us => ?_,
    fun S T C U V hU hV => subtract_common n hU hV, fun entries h => encodeSet_counted n h,
    fun S T hS hT => ?_⟩
  · rw [encodeSet_eq_updates, encodeSet_eq_updates]
    exact updates_perm (h.map _) _
  · have hperm : (Update.insert entry :: (us ++ [.delete entry])).Perm
        (.insert entry :: .delete entry :: us) := by
      exact (List.perm_append_singleton _ _).cons _
    have hupdates := (updates_perm hperm t).trans (updates_cancel t entry us)
    rwa [Iblt.updates, List.foldl_cons, List.foldl_append] at hupdates
  · have hlen : (encodeSet S n).cells.length = (encodeSet T n).cells.length :=
      (numCells_encodeSet S n).trans (numCells_encodeSet T n).symm
    have hbound : 3 * max S.length T.length < 2 ^ 31 := by omega
    refine ⟨_, dif_pos hlen, subtractChecked_eq hbound ?_ ?_⟩
    · exact (encodeSet_counted n hS).2.mono (by omega)
    · exact (encodeSet_counted n hT).2.mono (by omega)

end RustBinary.Ibl
