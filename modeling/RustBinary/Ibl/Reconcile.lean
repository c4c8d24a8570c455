import RustBinary.Ibl.Table

/-!
# Reconciliation

`decode` peels a table: it takes the first cell whose count is `1` or `-1` for a cell with one
element, takes that element out and starts again.  It accepts when all counts are zero, which
says nothing about the sums, and a cell may have such a count by cancellation.  So what it
returns is the difference of the two sets exactly when every cell that is peeled had an element
of what was left of the difference, and nothing was left in the end (`Peels`).
-/

namespace RustBinary.Ibl

open Lib Lib.Outcome

namespace Iblt

/-- The first cell that is taken for a cell with one element. -/
def firstSingle (t : Iblt) : Option Cell := t.cells.find? fun cell => cell.count = 1 ∨ cell.count = -1

/-- The loop of `decode`. -/
def decode : ℕ → Iblt → Outcome Error (List IbltEntry)
  | 0, _ => .diverge
  | fuel + 1, t =>
      match t.firstSingle with
      | some cell =>
          if splitmix64 cell.keySum ≠ cell.hashSum then
            .err (.iblt "IBLT cell hash does not verify")
          else if cell.count = 1 then do
            let rest ← decode fuel (t.delete cell.keySum cell.valueSum)
            pure (⟨cell.keySum, cell.valueSum, true⟩ :: rest)
          else do
            let rest ← decode fuel (t.insert cell.keySum cell.valueSum)
            pure (⟨cell.keySum, cell.valueSum, false⟩ :: rest)
      | none =>
          if t.isEmpty then pure []
          else .err (.iblt "IBLT decode incomplete (table too small?)")

end Iblt

/-- `reconcile`, with `fuel` rounds for the loop. -/
def reconcile (fuel : ℕ) (mine theirs : Iblt) : Outcome Error (List IbltEntry) := do
  let difference ← mine.subtract theirs
  difference.decode fuel

/-! ## What the result should be -/

/-- The elements that are reported with the flag `present`. -/
def reported (present : Bool) (entries : List IbltEntry) : List Pair :=
  (entries.filter fun entry => entry.presentInSelf = present).map fun entry =>
    (entry.key, entry.value)

/-- The reported elements are those of `A` on one side and those of `B` on the other, each
once. -/
def Reports (A B : List Pair) (entries : List IbltEntry) : Prop :=
  (reported true entries).Perm A ∧ (reported false entries).Perm B

instance (A B : List Pair) (entries : List IbltEntry) : Decidable (Reports A B entries) := by
  unfold Reports
  infer_instance

/-- Peeling the difference of `A` and `B` gets to the end, and every element that is taken out
of the table is one of the difference, on its side. -/
inductive Peels (n : ℕ) : List Pair → List Pair → Prop where
  | done : Peels n [] []
  | mine {A B : List Pair} {t : Iblt} {cell : Cell}
      (ht : (encodeSet A n).subtract (encodeSet B n) = .ok t) (hcell : t.firstSingle = some cell)
      (hcount : cell.count = 1) (hmem : (cell.keySum, cell.valueSum) ∈ A)
      (hrest : Peels n (A.erase (cell.keySum, cell.valueSum)) B) : Peels n A B
  | theirs {A B : List Pair} {t : Iblt} {cell : Cell}
      (ht : (encodeSet A n).subtract (encodeSet B n) = .ok t) (hcell : t.firstSingle = some cell)
      (hcount : cell.count = -1) (hmem : (cell.keySum, cell.valueSum) ∈ B)
      (hrest : Peels n A (B.erase (cell.keySum, cell.valueSum))) : Peels n A B

/-! ## One round -/

lemma reported_cons_self (key value : UInt64) (present : Bool) (rest : List IbltEntry) :
    reported present (⟨key, value, present⟩ :: rest) = (key, value) :: reported present rest := by
  simp [reported]

lemma reported_cons_not (key value : UInt64) {present side : Bool} (h : side ≠ present)
    (rest : List IbltEntry) :
    reported present (⟨key, value, side⟩ :: rest) = reported present rest := by
  simp [reported, h]

lemma reports_cons_mine {A B : List Pair} {key value : UInt64} {rest : List IbltEntry} :
    Reports A B (⟨key, value, true⟩ :: rest) ↔
      (key, value) ∈ A ∧ Reports (A.erase (key, value)) B rest := by
  rw [Reports, reported_cons_self, reported_cons_not key value (by decide),
    List.cons_perm_iff_perm_erase, Reports, and_assoc]

lemma reports_cons_theirs {A B : List Pair} {key value : UInt64} {rest : List IbltEntry} :
    Reports A B (⟨key, value, false⟩ :: rest) ↔
      (key, value) ∈ B ∧ Reports A (B.erase (key, value)) rest := by
  rw [Reports, reported_cons_self, reported_cons_not key value (by decide),
    List.cons_perm_iff_perm_erase, Reports]
  tauto

lemma reports_nil {A B : List Pair} : Reports A B [] ↔ A = [] ∧ B = [] := by
  rw [Reports, reported, reported, List.filter_nil, List.filter_nil, List.map_nil,
    List.nil_perm, List.nil_perm]

section Peels

variable {n : ℕ} {A B : List Pair} {t : Iblt} {cell : Cell}

lemma Encodes.delete (h : Encodes n A B t) {key value : UInt64} (hmem : (key, value) ∈ A) :
    Encodes n (A.erase (key, value)) B (t.delete key value) := by
  refine ⟨by rw [numCells_delete, h.numCells_eq], ?_⟩
  rw [cell_delete, h.numCells_eq, h.cell_eq, Sketch.difference_erase_left _ hmem]

lemma Encodes.insert (h : Encodes n A B t) {key value : UInt64} (hmem : (key, value) ∈ B) :
    Encodes n A (B.erase (key, value)) (t.insert key value) := by
  refine ⟨by rw [numCells_insert, h.numCells_eq], ?_⟩
  rw [cell_insert, h.numCells_eq, h.cell_eq, Sketch.difference_erase_right _ hmem]

/-- The table of a difference is the one that the code makes. -/
lemma Encodes.subtract_eq (h : Encodes (max n 1) A B t) :
    (encodeSet A n).subtract (encodeSet B n) = .ok t := by
  obtain ⟨d, hd⟩ := exists_subtract A B n
  rw [hd, (encodes_of_subtract hd).unique h]

lemma firstSingle_count (h : t.firstSingle = some cell) : cell.count = 1 ∨ cell.count = -1 := by
  have hfound := List.find?_some h
  simpa only [decide_eq_true_eq] using hfound

/-- No cell of an empty difference has a count. -/
lemma firstSingle_nil (h : Encodes n [] [] t) : t.firstSingle = none := by
  rw [Iblt.firstSingle, List.find?_eq_none]
  intro cell hcell
  obtain ⟨q, hq, rfl⟩ := List.mem_iff_getElem.mp hcell
  have hzero : t.cells[q] = 0 := by
    have hq' := congrFun h.cell_eq q
    rw [Iblt.cell, List.getD_eq_getElem?_getD, List.getElem?_eq_getElem hq] at hq'
    exact hq'.trans (sub_zero (0 : Cell))
  rw [hzero]
  decide

/-- What is left when no cell is peeled. -/
lemma peels_iff_of_none (h : Encodes (max n 1) A B t) (hnone : t.firstSingle = none) :
    Peels n A B ↔ A = [] ∧ B = [] := by
  constructor
  · intro hp
    cases hp with
    | done => exact ⟨rfl, rfl⟩
    | mine ht hcell =>
        rw [h.subtract_eq] at ht
        cases ht
        rw [hnone] at hcell
        cases hcell
    | theirs ht hcell =>
        rw [h.subtract_eq] at ht
        cases ht
        rw [hnone] at hcell
        cases hcell
  · rintro ⟨rfl, rfl⟩
    exact .done

lemma peels_iff_of_one (h : Encodes (max n 1) A B t) (hcell : t.firstSingle = some cell)
    (hcount : cell.count = 1) :
    Peels n A B ↔ (cell.keySum, cell.valueSum) ∈ A ∧
      Peels n (A.erase (cell.keySum, cell.valueSum)) B := by
  constructor
  · intro hp
    cases hp with
    | done =>
        rw [firstSingle_nil h] at hcell
        cases hcell
    | mine ht hcell' hcount' hmem hrest =>
        rw [h.subtract_eq] at ht
        cases ht
        rw [hcell] at hcell'
        cases hcell'
        exact ⟨hmem, hrest⟩
    | theirs ht hcell' hcount' hmem hrest =>
        rw [h.subtract_eq] at ht
        cases ht
        rw [hcell] at hcell'
        cases hcell'
        exact absurd (hcount.symm.trans hcount') (by decide)
  · rintro ⟨hmem, hrest⟩
    exact .mine h.subtract_eq hcell hcount hmem hrest

lemma peels_iff_of_neg_one (h : Encodes (max n 1) A B t) (hcell : t.firstSingle = some cell)
    (hcount : cell.count = -1) :
    Peels n A B ↔ (cell.keySum, cell.valueSum) ∈ B ∧
      Peels n A (B.erase (cell.keySum, cell.valueSum)) := by
  constructor
  · intro hp
    cases hp with
    | done =>
        rw [firstSingle_nil h] at hcell
        cases hcell
    | mine ht hcell' hcount' hmem hrest =>
        rw [h.subtract_eq] at ht
        cases ht
        rw [hcell] at hcell'
        cases hcell'
        exact absurd (hcount.symm.trans hcount') (by decide)
    | theirs ht hcell' hcount' hmem hrest =>
        rw [h.subtract_eq] at ht
        cases ht
        rw [hcell] at hcell'
        cases hcell'
        exact ⟨hmem, hrest⟩
  · rintro ⟨hmem, hrest⟩
    exact .theirs h.subtract_eq hcell hcount hmem hrest

end Peels

/-! ## All rounds -/

/-- The loop reports a difference exactly when the difference is peeled. -/
lemma decode_reports_iff {n fuel : ℕ} {A B : List Pair} {t : Iblt} {entries : List IbltEntry}
    (henc : Encodes (max n 1) A B t) (h : t.decode fuel = .ok entries) :
    Reports A B entries ↔ Peels n A B := by
  induction fuel generalizing A B t entries with
  | zero => cases h
  | succ fuel ih =>
      rw [Iblt.decode] at h
      cases hcell : t.firstSingle with
      | none =>
          rw [hcell] at h
          dsimp only at h
          split at h
          · cases h
            rw [reports_nil, peels_iff_of_none henc hcell]
          · cases h
      | some cell =>
          rw [hcell] at h
          dsimp only at h
          split at h
          · cases h
          · split at h
            · next hcount =>
                obtain ⟨rest, hrest, h⟩ := bind_eq_ok.mp h
                cases h
                rw [reports_cons_mine, peels_iff_of_one henc hcell hcount]
                exact and_congr_right fun hmem => ih (henc.delete hmem) hrest
            · next hcount =>
                have hneg : cell.count = -1 := (firstSingle_count hcell).resolve_left hcount
                obtain ⟨rest, hrest, h⟩ := bind_eq_ok.mp h
                cases h
                rw [reports_cons_theirs, peels_iff_of_neg_one henc hcell hneg]
                exact and_congr_right fun hmem => ih (henc.insert hmem) hrest

lemma reconcile_single :
    reconcile 4 (encodeSet [(5, 7)] 16) (encodeSet [] 16) = .ok [⟨5, 7, true⟩] := by
  decide +kernel

end RustBinary.Ibl
