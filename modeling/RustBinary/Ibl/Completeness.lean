import RustBinary.Ibl.Reconcile

/-!
# When peeling completes

Entries that are alone in a cell can be taken out one after the other until nothing is left.  The
loop of `decode` does not look for such an entry: it goes for the first cell whose count is `1` or
`-1`, and gives up when this cell belongs to several entries.
-/

namespace RustBinary.Ibl

open Lib Lib.Outcome

/-- The cells of `key`. -/
def positions (numCells : ℕ) (key : UInt64) : List ℕ :=
  positionSeeds.map fun seed => position key seed numCells

/-- `entry` is one of `entries`, and none of the others is in the cell `q`. -/
structure Alone (numCells q : ℕ) (entries : List Pair) (entry : Pair) : Prop where
  mem : entry ∈ entries
  here : q ∈ positions numCells entry.1
  unique : ∀ other ∈ entries, q ∈ positions numCells other.1 → other = entry

/-- Some order of removing an entry that is alone in one of its cells gets to the end. -/
inductive Peelable (numCells : ℕ) : List Pair → Prop where
  | done : Peelable numCells []
  | remove {entries : List Pair} {q : ℕ} {entry : Pair} (halone : Alone numCells q entries entry)
      (hrest : Peelable numCells (entries.erase entry)) : Peelable numCells entries

/-- The order of the loop gets to the end: the first cell with a count of `1` or `-1` is always
that of a single element of what is left. -/
inductive Scans (n : ℕ) : List Pair → List Pair → Prop where
  | done : Scans n [] []
  | mine {A B : List Pair} {t : Iblt} {entry : Pair}
      (ht : (encodeSet A n).subtract (encodeSet B n) = .ok t)
      (hcell : t.firstSingle = some (Cell.single entry.1 entry.2)) (hmem : entry ∈ A)
      (hrest : Scans n (A.erase entry) B) : Scans n A B
  | theirs {A B : List Pair} {t : Iblt} {entry : Pair}
      (ht : (encodeSet A n).subtract (encodeSet B n) = .ok t)
      (hcell : t.firstSingle = some (-Cell.single entry.1 entry.2)) (hmem : entry ∈ B)
      (hrest : Scans n A (B.erase entry)) : Scans n A B

section Order

variable {n : ℕ} {A B : List Pair} {t : Iblt}

/-- A verified cell with the count `1` is that of an element. -/
lemma eq_single {cell : Cell} (hcount : cell.count = 1)
    (hhash : splitmix64 cell.keySum = cell.hashSum) :
    cell = Cell.single cell.keySum cell.valueSum := Cell.ext hcount rfl rfl hhash.symm

lemma eq_neg_single {cell : Cell} (hcount : cell.count = -1)
    (hhash : splitmix64 cell.keySum = cell.hashSum) :
    cell = -Cell.single cell.keySum cell.valueSum := Cell.ext hcount rfl rfl hhash.symm

/-- The loop reports the whole difference only along its order. -/
lemma scans_of_decode {fuel : ℕ} {entries : List IbltEntry} (henc : Encodes (max n 1) A B t)
    (h : t.decode fuel = .ok entries) (hreports : Reports A B entries) : Scans n A B := by
  induction fuel generalizing A B t entries with
  | zero => cases h
  | succ fuel ih =>
      rw [Iblt.decode] at h
      cases hcell : t.firstSingle with
      | none =>
          rw [hcell] at h
          dsimp only at h
          split at h
          · cases h
            obtain ⟨rfl, rfl⟩ := reports_nil.mp hreports
            exact .done
          · cases h
      | some cell =>
          rw [hcell] at h
          dsimp only at h
          split at h
          · cases h
          · next hhash =>
              rw [not_not] at hhash
              split at h
              · next hcount =>
                  obtain ⟨rest, hrest, h⟩ := bind_eq_ok.mp h
                  cases h
                  obtain ⟨hmem, hreports⟩ := reports_cons_mine.mp hreports
                  rw [eq_single hcount hhash] at hcell
                  exact .mine henc.subtract_eq hcell hmem (ih (henc.delete hmem) hrest hreports)
              · next hcount =>
                  have hneg := (firstSingle_count hcell).resolve_left hcount
                  obtain ⟨rest, hrest, h⟩ := bind_eq_ok.mp h
                  cases h
                  obtain ⟨hmem, hreports⟩ := reports_cons_theirs.mp hreports
                  rw [eq_neg_single hneg hhash] at hcell
                  exact .theirs henc.subtract_eq hcell hmem (ih (henc.insert hmem) hrest hreports)

/-- Along its order the loop reports the whole difference. -/
lemma decode_of_scans (h : Scans n A B) (henc : Encodes (max n 1) A B t) :
    ∃ fuel entries, t.decode fuel = .ok entries ∧ Reports A B entries := by
  induction h generalizing t with
  | done =>
      have hempty : t.isEmpty := by
        rw [Iblt.isEmpty, List.all_eq_true]
        intro cell hcell
        obtain ⟨q, hq, rfl⟩ := List.mem_iff_getElem.mp hcell
        have hq' := congrFun henc.cell_eq q
        rw [Iblt.cell, List.getD_eq_getElem?_getD, List.getElem?_eq_getElem hq] at hq'
        rw [show t.cells[q] = 0 from hq'.trans (sub_zero (0 : Cell))]
        rfl
      refine ⟨1, [], ?_, reports_nil.mpr ⟨rfl, rfl⟩⟩
      rw [Iblt.decode, firstSingle_nil henc]
      exact if_pos hempty
  | mine ht hcell hmem hrest ih =>
      rw [henc.subtract_eq] at ht
      cases ht
      obtain ⟨fuel, entries, hdecode, hreports⟩ := ih (henc.delete hmem)
      refine ⟨fuel + 1, _, ?_, reports_cons_mine.mpr ⟨hmem, hreports⟩⟩
      rw [Iblt.decode, hcell]
      dsimp only [Cell.single]
      rw [if_neg (not_not.mpr rfl), if_pos rfl, hdecode]
      rfl
  | @theirs A B t' entry ht hcell hmem hrest ih =>
      rw [henc.subtract_eq] at ht
      cases ht
      obtain ⟨fuel, entries, hdecode, hreports⟩ := ih (henc.insert hmem)
      refine ⟨fuel + 1, _, ?_, reports_cons_theirs.mpr ⟨hmem, hreports⟩⟩
      have hhash : ¬ splitmix64 (-Cell.single entry.1 entry.2).keySum
          ≠ (-Cell.single entry.1 entry.2).hashSum := not_not.mpr rfl
      have hcount : (-Cell.single entry.1 entry.2).count ≠ 1 := by
        change (-1 : Int32) ≠ 1
        decide
      rw [Iblt.decode, hcell]
      dsimp only
      rw [if_neg hhash, if_neg hcount]
      change (t'.insert entry.1 entry.2).decode fuel >>= _ = _
      rw [hdecode]
      rfl

end Order

end RustBinary.Ibl
