import RustBinary.Core.Slice
import Mathlib.Algebra.BigOperators.Group.List.Basic

/-!
# Static frequency models

A model is a table of positive frequencies that sum to the total mass.  The cumulative
frequencies and the owner of each slot are read off the table.
-/

namespace RustBinary.Entropy

open Lib Lib.Outcome

/-- Total frequency mass of every model. -/
def ransM : ℕ := 2 ^ 15

/-- One static frequency model over an exact symbol alphabet. -/
structure Model where
  freqs : List ℕ
  pos : ∀ f ∈ freqs, 0 < f
  sum_eq : freqs.sum = ransM

/-- The slots of the symbols from `symbol` on, each as often as its frequency. -/
def slotsFrom : ℕ → List ℕ → List ℕ
  | _, [] => []
  | symbol, f :: freqs => List.replicate f symbol ++ slotsFrom (symbol + 1) freqs

namespace Model

/-- Number of distinct symbols in the alphabet. -/
def symbols (m : Model) : ℕ := m.freqs.length

/-- Cumulative frequency before `symbol`. -/
def cum (m : Model) (symbol : ℕ) : ℕ :=
  if m.freqs.length < symbol then 0 else (m.freqs.take symbol).sum

/-- Frequency of `symbol`. -/
def freq (m : Model) (symbol : ℕ) : ℕ := m.freqs.getD symbol 0

/-- `slot_to_symbol`. -/
def slotToSymbol (m : Model) : List ℕ := slotsFrom 0 m.freqs

/-- Maps a slot to the symbol owning that slot. -/
def symbolForSlot (m : Model) (slot : ℕ) : Outcome Error ℕ := orPanic m.slotToSymbol[slot]?

end Model

/-! ## Building models -/

/-- The loop of `from_freqs`: the cumulative frequency after the table. -/
def cumLoop : ℕ → List ℕ → Outcome Error ℕ
  | last, [] => .ok last
  | last, value :: freqs =>
      if value = 0 then .err (.entropy "model frequency must be positive")
      else if ransM < last + value then
        .err (.entropy "model frequencies exceed the total frequency mass")
      else cumLoop (last + value) freqs

lemma cumLoop_eq_ok {last total : ℕ} {freqs : List ℕ} (h : cumLoop last freqs = .ok total) :
    (∀ f ∈ freqs, 0 < f) ∧ total = last + freqs.sum := by
  induction freqs generalizing last with
  | nil =>
      rw [cumLoop, Outcome.ok.injEq] at h
      exact ⟨by simp, by simp [h]⟩
  | cons value freqs ih =>
      rw [cumLoop] at h
      split at h
      · simp at h
      · next hzero =>
          split at h
          · simp at h
          · obtain ⟨hpos, hsum⟩ := ih h
            refine ⟨?_, by rw [hsum, List.sum_cons, Nat.add_assoc]⟩
            intro f hf
            rcases List.mem_cons.mp hf with rfl | hmem
            · omega
            · exact hpos f hmem

/-- `Model::from_freqs`. -/
def fromFreqs (freqs : List ℕ) : Outcome Error Model :=
  if freqs = [] then .err (.entropy "empty model frequency table")
  else
    match h : cumLoop 0 freqs with
    | .ok total =>
        if htotal : total = ransM then
          .ok
            { freqs := freqs
              pos := (cumLoop_eq_ok h).1
              sum_eq := by
                rw [← htotal, (cumLoop_eq_ok h).2, Nat.zero_add] }
        else .err (.entropy "model frequencies must sum to the total frequency mass")
    | .err e => .err e
    | .panic => .panic
    | .diverge => .diverge

/-- `Model::from_uniform`. -/
def fromUniform (symbols : ℕ) : Outcome Error Model :=
  if symbols = 0 ∨ ransM < symbols then .err (.entropy "model alphabet must be in 1..=32768")
  else
    fromFreqs ((List.range symbols).map fun index =>
      ransM / symbols + if index < ransM % symbols then 1 else 0)

/-- The indices of `keys`, larger keys first, ties by index. -/
def descending (keys : List ℕ) : List ℕ :=
  (List.range keys.length).mergeSort fun a b =>
    decide (keys.getD b 0 < keys.getD a 0 ∨ keys.getD a 0 = keys.getD b 0 ∧ a ≤ b)

/-- Takes `excess` from the frequencies in `order`, but never below one; what is left over. -/
def reduceLoop : List ℕ → ℕ → List ℕ → List ℕ × ℕ
  | [], excess, freqs => (freqs, excess)
  | index :: order, excess, freqs =>
      if excess = 0 then (freqs, 0)
      else
        let reduce := min (freqs.getD index 0 - 1) excess
        reduceLoop order (excess - reduce) (freqs.modify index fun f => f - reduce)

/-- `Model::from_weights`. -/
def fromWeights (weights : List ℕ) : Outcome Error Model := do
  let symbols := weights.length
  if symbols = 0 ∨ ransM < symbols then
    .err (.entropy "model weights must contain 1..=32768 entries")
  else
    let total := weights.sum
    if total = 0 then .err (.entropy "model weights must be positive")
    else
      let freqs := weights.map fun weight => max (weight * ransM / total) 1
      let (freqs, excess) :=
        if ransM < freqs.sum then reduceLoop (descending freqs) (freqs.sum - ransM) freqs
        else (freqs, 0)
      -- the floors are below the mass, so that nothing is left over
      if excess ≠ 0 then .panic
      else
        let order := descending (weights.map fun weight => weight * ransM % total)
        let freqs := (order.take (ransM - freqs.sum)).foldl (fun freqs index =>
          freqs.modify index (· + 1)) freqs
        fromFreqs freqs

end RustBinary.Entropy
