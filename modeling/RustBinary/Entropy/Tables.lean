import RustBinary.Lib.Limbs
import RustBinary.Entropy.Quotas
import RustBinary.Entropy.Bounds

/-!
# The tables of a model

A model as it is stored: frequencies and cumulative frequencies in 16 bits each, and the table
from slots to symbols, which is filled range by range.  The tables are built with the arithmetic
of the machine, which panics where it overflows and cuts off what does not fit a conversion;
for the weights and the alphabets that are let in neither ever happens.
-/

namespace RustBinary.Entropy

open Lib Lib.Outcome Apportion

/-! ## Machine arithmetic -/

/-- A difference, which must not underflow. -/
def checkedSub (a b : ℕ) : Outcome Error ℕ := if b ≤ a then .ok (a - b) else .panic

/-- `iter().sum()` in words of `w` bits, from `sum` on. -/
def checkedSum (w : ℕ) : ℕ → List ℕ → Outcome Error ℕ
  | sum, [] => .ok sum
  | sum, value :: values => do
      let sum ← checked w (sum + value)
      checkedSum w sum values

lemma checkedSub_of_le {a b : ℕ} (h : b ≤ a) : checkedSub a b = ok (a - b) := if_pos h

lemma checkedSum_of_lt {w sum : ℕ} {values : List ℕ} (h : sum + values.sum < 2 ^ w) :
    checkedSum w sum values = ok (sum + values.sum) := by
  induction values generalizing sum with
  | nil => rfl
  | cons value values ih =>
      rw [List.sum_cons, ← Nat.add_assoc] at h ⊢
      rw [checkedSum, checked_of_lt (by omega), ok_bind, ih h]

/-- The tables of a model. -/
structure Tables where
  symbols : ℕ
  freq : List ℕ
  cum : List ℕ
  slotToSymbol : List ℕ
deriving DecidableEq, Repr

namespace Tables

/-! ## The accessors -/

/-- Cumulative frequency before `symbol`. -/
def cumOf (t : Tables) (symbol : ℕ) : ℕ := t.cum.getD symbol 0

/-- Frequency of `symbol`. -/
def freqOf (t : Tables) (symbol : ℕ) : ℕ := t.freq.getD symbol 0

/-- Maps a slot to the symbol owning that slot. -/
def symbolForSlot (t : Tables) (slot : ℕ) : Outcome Error ℕ := orPanic t.slotToSymbol[slot]?

/-! ## Building tables -/

/-- The loop over the frequencies; `cum` holds the sums so far. -/
def cumulate : List ℕ → List ℕ → Outcome Error (List ℕ)
  | cum, [] => .ok cum
  | cum, value :: freq => do
      if value = 0 then .err (.entropy "model frequency must be positive")
      else
        let next ← checked 32 (cum.getLastD 0 + value)
        if ransM < next then .err (.entropy "model frequencies exceed the total frequency mass")
        else cumulate (cum ++ [next]) freq

/-- `table[start..stop].fill(value)`. -/
def fill (table : List ℕ) (start stop value : ℕ) : Outcome Error (List ℕ) :=
  if start ≤ stop ∧ stop ≤ table.length then
    .ok (table.take start ++ List.replicate (stop - start) value ++ table.drop stop)
  else .panic

/-- The loop over the symbols. -/
def fillLoop (cum : List ℕ) : List ℕ → List ℕ → Outcome Error (List ℕ)
  | [], table => .ok table
  | symbol :: symbols, table => do
      let start ← orPanic cum[symbol]?
      let stop ← orPanic cum[symbol + 1]?
      let table ← fill table start stop (symbol % 2 ^ 16)
      fillLoop cum symbols table

/-- `Model::from_freqs`. -/
def fromFreqs (freq : List ℕ) : Outcome Error Tables := do
  let symbols := freq.length
  if symbols = 0 then .err (.entropy "empty model frequency table")
  else
    let cum ← cumulate [0] freq
    if cum.getLastD 0 ≠ ransM then
      .err (.entropy "model frequencies must sum to the total frequency mass")
    else
      let slotToSymbol ← fillLoop cum (List.range symbols) (List.replicate ransM 0)
      .ok
        { symbols := symbols % 2 ^ 32
          freq := freq
          cum := cum.map (· % 2 ^ 16)
          slotToSymbol := slotToSymbol }

/-- `Model::from_uniform`. -/
def fromUniform (symbols : ℕ) : Outcome Error Tables := do
  if symbols = 0 ∨ ransM < symbols then .err (.entropy "model alphabet must be in 1..=32768")
  else
    let base := ransM / symbols
    let extra := ransM % symbols
    let freq ← mapAll (fun index => do
      let value ← checked 32 (base + if index < extra then 1 else 0)
      .ok (value % 2 ^ 16)) (List.range symbols)
    fromFreqs freq

/-- The reduction: takes `excess` from the frequencies in `order`, but never below one. -/
def reduceLoop : List ℕ → ℕ → List ℕ → Outcome Error (List ℕ × ℕ)
  | [], excess, freq => .ok (freq, excess)
  | index :: order, excess, freq => do
      if excess = 0 then .ok (freq, 0)
      else
        let value ← orPanic freq[index]?
        let reducible ← checkedSub value 1
        let reduce := min reducible excess
        let value ← checkedSub value reduce
        let excess ← checkedSub excess reduce
        reduceLoop order excess (freq.set index value)

/-- One unit for each index of `order`. -/
def raiseLoop : List ℕ → List ℕ → Outcome Error (List ℕ)
  | [], freq => .ok freq
  | index :: order, freq => do
      let value ← orPanic freq[index]?
      let value ← checked 32 (value + 1)
      raiseLoop order (freq.set index value)

/-- What is taken away when the sum is above the mass; the frequencies and their sum. -/
def reduce (freq : List ℕ) (sum : ℕ) : Outcome Error (List ℕ × ℕ) := do
  if ransM < sum then
    let excess ← checkedSub sum ransM
    let (freq, excess) ← reduceLoop (descending freq) excess freq
    -- the assertion after the loop
    if excess ≠ 0 then .panic
    else
      let sum ← checkedSum 32 0 freq
      .ok (freq, sum)
  else .ok (freq, sum)

/-- `Model::from_weights`.  The products are those of the quotas and of the comparisons alike. -/
def fromWeights (weights : List UInt32) : Outcome Error Tables := do
  let symbols := weights.length
  if symbols = 0 ∨ ransM < symbols then
    .err (.entropy "model weights must contain 1..=32768 entries")
  else
    let total ← checkedSum 64 0 (weights.map UInt32.toNat)
    if total = 0 then .err (.entropy "model weights must be positive")
    else
      let scaled ← mapAll (fun weight => checked 64 (weight.toNat * ransM)) weights
      let freq := scaled.map fun product => max (product / total % 2 ^ 32) 1
      let sum ← checkedSum 32 0 freq
      let (freq, sum) ← reduce freq sum
      let deficit ← checkedSub ransM sum
      let order := descending (scaled.map (· % total))
      let freq ← raiseLoop (order.take deficit) freq
      fromFreqs (freq.map (· % 2 ^ 16))

end Tables

/-! ## Tables of frequencies -/

/-- The tables of a model. -/
def Model.tables (m : Model) : Tables where
  symbols := m.symbols
  freq := m.freqs
  cum := (List.range (m.symbols + 1)).map m.cum
  slotToSymbol := m.slotToSymbol

namespace Tables

/-- The sums of the first frequencies. -/
def sums (freqs : List ℕ) : List ℕ := (List.range (freqs.length + 1)).map fun s => (freqs.take s).sum

lemma sums_append (freqs : List ℕ) (value : ℕ) :
    sums (freqs ++ [value]) = sums freqs ++ [freqs.sum + value] := by
  rw [sums, List.length_append, List.length_singleton, List.range_succ, List.map_append,
    List.map_singleton, List.take_of_length_le (by simp), List.sum_append, List.sum_singleton]
  congr 1
  refine List.map_congr_left fun s hs => ?_
  rw [List.mem_range] at hs
  rw [List.take_append_of_le_length (by omega)]

lemma getLastD_sums (freqs : List ℕ) : (sums freqs).getLastD 0 = freqs.sum := by
  rw [sums, List.range_succ, List.map_append, List.map_singleton, List.take_length]
  simp

lemma sums_getElem? {freqs : List ℕ} {s : ℕ} (h : s ≤ freqs.length) :
    (sums freqs)[s]? = some (freqs.take s).sum := by
  rw [sums, List.getElem?_map, List.getElem?_range (by omega)]
  rfl

lemma cumulate_eq {front freqs : List ℕ} (hpos : ∀ f ∈ freqs, 0 < f)
    (hsum : (front ++ freqs).sum ≤ ransM) :
    cumulate (sums front) freqs = ok (sums (front ++ freqs)) := by
  induction freqs generalizing front with
  | nil => rw [cumulate, List.append_nil]
  | cons value freqs ih =>
      have hvalue := hpos value List.mem_cons_self
      rw [List.append_cons] at hsum ⊢
      have hle : front.sum + value ≤ ransM := by
        rw [List.sum_append, List.sum_append, List.sum_singleton] at hsum
        omega
      have hfits : front.sum + value < 2 ^ 32 := hle.trans_lt (by decide)
      rw [cumulate, if_neg (by omega), getLastD_sums, checked_of_lt hfits, ok_bind,
        if_neg (by omega), ← sums_append, ih (fun f hf => hpos f (List.mem_cons_of_mem _ hf)) hsum]

lemma slotsFrom_append (k : ℕ) (front freqs : List ℕ) :
    slotsFrom k (front ++ freqs) = slotsFrom k front ++ slotsFrom (k + front.length) freqs := by
  induction front generalizing k with
  | nil => rfl
  | cons f front ih =>
      rw [List.cons_append, slotsFrom, slotsFrom, ih, List.append_assoc, List.length_cons,
        Nat.add_right_comm, Nat.add_assoc]

/-- The ranges of the first symbols are filled, the rest of the table is as it was. -/
lemma fillLoop_eq {freqs : List ℕ} (hlength : freqs.length ≤ 2 ^ 16) (hsum : freqs.sum = ransM) :
    ∀ {front back : List ℕ}, front ++ back = freqs →
      fillLoop (sums freqs) (List.range' front.length back.length)
        (slotsFrom 0 front ++ List.replicate (ransM - front.sum) 0) = ok (slotsFrom 0 freqs) := by
  intro front back
  induction back generalizing front with
  | nil =>
      intro h
      rw [List.append_nil] at h
      rw [h, hsum, Nat.sub_self]
      exact congrArg ok (List.append_nil _)
  | cons value back ih =>
      intro h
      have hlen : front.length + 1 ≤ freqs.length := by
        rw [← h, List.length_append, List.length_cons]
        omega
      have hfront : freqs.take front.length = front := by rw [← h, List.take_left]
      have hnext : freqs.take (front.length + 1) = front ++ [value] := by
        rw [← h, List.append_cons, List.take_left' (by simp)]
      have hfits : front.sum + value ≤ ransM := by
        rw [← hsum, ← h, List.sum_append, List.sum_cons]
        omega
      have hslots := slotsFrom_length 0 front
      have hfill : fill (slotsFrom 0 front ++ List.replicate (ransM - front.sum) 0) front.sum
          (front.sum + value) (front.length % 2 ^ 16)
          = ok (slotsFrom 0 (front ++ [value])
            ++ List.replicate (ransM - (front ++ [value]).sum) 0) := by
        rw [fill, if_pos ⟨Nat.le_add_right _ _, by
          rw [List.length_append, List.length_replicate, hslots]
          omega⟩, List.take_left' hslots, Nat.add_sub_cancel_left,
          Nat.mod_eq_of_lt (by omega), slotsFrom_append, Nat.zero_add, List.drop_append,
          List.drop_of_length_le (by omega), List.nil_append, List.drop_replicate, hslots,
          List.sum_append, List.sum_singleton, slotsFrom, slotsFrom, List.append_nil]
        congr 3
        omega
      have ih' := ih (by rw [← h, List.append_cons])
      rw [List.length_append, List.length_singleton] at ih'
      rw [List.length_cons, List.range'_succ, fillLoop, sums_getElem? (by omega), hfront,
        orPanic_some, ok_bind, sums_getElem? hlen, hnext, orPanic_some, ok_bind, List.sum_append,
        List.sum_singleton, hfill, ok_bind]
      exact ih'

/-- Frequencies that sum to the mass have tables. -/
lemma fromFreqs_eq (m : Model) : fromFreqs m.freqs = ok m.tables := by
  have hlength : m.freqs.length ≤ ransM := by
    rw [← m.sum_eq]
    have hle := List.length_le_sum_of_one_le m.freqs m.pos
    exact hle
  have hne : m.freqs.length ≠ 0 := by
    intro h
    have hsum := m.sum_eq
    rw [List.length_eq_zero_iff.mp h] at hsum
    exact absurd hsum (by decide)
  have hcum : cumulate (sums []) m.freqs = ok (sums ([] ++ m.freqs)) :=
    cumulate_eq m.pos m.sum_eq.le
  change cumulate [0] m.freqs = ok (sums m.freqs) at hcum
  have hfill : fillLoop (sums m.freqs) (List.range m.freqs.length) (List.replicate ransM 0)
      = ok m.slotToSymbol := by
    rw [List.range_eq_range']
    exact fillLoop_eq (hlength.trans (by decide)) m.sum_eq (List.nil_append _)
  rw [fromFreqs, if_neg hne, hcum, ok_bind, getLastD_sums, if_neg (not_not.mpr m.sum_eq), hfill,
    ok_bind,
    Nat.mod_eq_of_lt (hlength.trans_lt (by decide)), Model.tables]
  congr 2
  rw [sums, List.map_map]
  refine List.map_congr_left fun s hs => ?_
  have hs' : s ≤ m.freqs.length := Nat.le_of_lt_succ (List.mem_range.mp hs)
  have hle : (m.freqs.take s).sum ≤ ransM := by
    rw [← m.sum_eq, ← List.sum_take_add_sum_drop m.freqs s]
    exact Nat.le_add_right _ _
  rw [Model.cum, if_neg (by omega)]
  exact Nat.mod_eq_of_lt (hle.trans_lt (by decide))

/-! ## Tables of weights -/

/-- The weights as numbers. -/
def numbers (weights : List UInt32) : List ℕ := weights.map UInt32.toNat

lemma sum_numbers_lt {weights : List UInt32} (h : weights.length ≤ ransM) :
    (numbers weights).sum < 2 ^ 48 := by
  have hle := List.sum_le_card_nsmul (numbers weights) (2 ^ 32) (by
    intro n hn
    obtain ⟨w, -, rfl⟩ := List.mem_map.mp hn
    exact w.toNat_lt.le)
  rw [numbers, List.length_map, smul_eq_mul] at hle
  rw [numbers]
  rw [ransM] at h
  omega

lemma set_eq_modify {freq : List ℕ} {index value : ℕ} (f : ℕ → ℕ) (h : freq[index]? = some value) :
    freq.set index (f value) = freq.modify index f := by
  induction freq generalizing index with
  | nil => simp at h
  | cons x freq ih =>
      cases index with
      | zero =>
          rw [List.getElem?_cons_zero, Option.some.injEq] at h
          rw [h, List.set_cons_zero, List.modify_zero_cons]
      | succ index =>
          rw [List.getElem?_cons_succ] at h
          rw [List.set_cons_succ, List.modify_succ_cons, ih h]

/-- The reduction does not underflow: no entry falls below one. -/
lemma reduceLoop_eq {order freq : List ℕ} {excess : ℕ} (hpos : ∀ f ∈ freq, 0 < f)
    (hmem : ∀ i ∈ order, i < freq.length) :
    reduceLoop order excess freq = ok (Entropy.reduceLoop order excess freq) := by
  induction order generalizing freq excess with
  | nil => rfl
  | cons index order ih =>
      have hi : index < freq.length := hmem index List.mem_cons_self
      have hvalue : freq[index]? = some freq[index] := List.getElem?_eq_getElem hi
      have hone := hpos _ (List.getElem_mem hi)
      rw [reduceLoop, Entropy.reduceLoop]
      split
      · rfl
      · rw [hvalue, orPanic_some, ok_bind, checkedSub_of_le hone, ok_bind]
        dsimp only
        rw [checkedSub_of_le (by omega), ok_bind, checkedSub_of_le (Nat.min_le_right _ _), ok_bind,
          List.getD_eq_getElem _ _ hi,
          set_eq_modify (fun f => f - min (freq[index] - 1) excess) hvalue]
        refine ih (fun f hf => ?_) fun i hmore => ?_
        · rw [← set_eq_modify (fun f => f - min (freq[index] - 1) excess) hvalue] at hf
          rcases List.mem_or_eq_of_mem_set hf with hf | rfl
          · exact hpos f hf
          · omega
        · rw [List.length_modify]
          exact hmem i (List.mem_cons_of_mem _ hmore)

/-- The units do not overflow. -/
lemma raiseLoop_eq {order freq : List ℕ} (hsum : freq.sum + order.length < 2 ^ 32)
    (hmem : ∀ i ∈ order, i < freq.length) :
    raiseLoop order freq = ok (Entropy.raiseLoop order freq) := by
  induction order generalizing freq with
  | nil => rfl
  | cons index order ih =>
      have hi : index < freq.length := hmem index List.mem_cons_self
      have hvalue : freq[index]? = some freq[index] := List.getElem?_eq_getElem hi
      have hle : freq[index] ≤ freq.sum := List.le_sum_of_mem (List.getElem_mem hi)
      have hone := sum_modify hi (· + 1)
      rw [List.length_cons] at hsum
      rw [raiseLoop, hvalue, orPanic_some, ok_bind, checked_of_lt (by omega), ok_bind,
        set_eq_modify (· + 1) hvalue]
      refine ih (by omega) fun i hmore => ?_
      rw [List.length_modify]
      exact hmem i (List.mem_cons_of_mem _ hmore)

/-- The frequencies of accepted weights, as a model. -/
def weighted {weights : List ℕ} (h : Accepted weights) : Model where
  freqs := apportioned weights
  pos := fun _ hf => apportioned_pos hf
  sum_eq := sum_apportioned h

lemma reduce_eq {weights : List ℕ} (h : Accepted weights) :
    reduce (bumped weights) (bumped weights).sum
      = ok ((reduced weights).1, (reduced weights).1.sum) := by
  rw [reduce]
  split
  · next hover =>
      have hloop : reduceLoop (descending (bumped weights)) ((bumped weights).sum - ransM)
          (bumped weights) = ok (reduced weights) := by
        rw [reduced, if_pos hover]
        refine reduceLoop_eq (fun f hf => ?_) fun i hi => mem_descending.mp hi
        obtain ⟨w, -, rfl⟩ := List.mem_map.mp hf
        omega
      have hfits : 0 + (reduced weights).1.sum < 2 ^ 32 := by
        rw [sum_reduced h, Nat.zero_add]
        exact (Nat.min_le_right _ _).trans_lt (by decide)
      rw [checkedSub_of_le hover.le, ok_bind, hloop, ok_bind]
      dsimp only
      rw [if_neg (not_not.mpr (reduced_snd h)), checkedSum_of_lt hfits, ok_bind, Nat.zero_add]
  · next hle => rw [reduced_of_le (Nat.le_of_not_lt hle)]

/-- The machine computes the phases: nothing overflows, underflows or is cut off. -/
lemma fromWeights_eq {weights : List UInt32} (h : Accepted (numbers weights)) :
    fromWeights weights = ok (weighted h).tables := by
  obtain ⟨total, htotal⟩ : ∃ total, total = (numbers weights).sum := ⟨_, rfl⟩
  have hlength := h.length_le
  have hpos := h.length_pos
  rw [numbers, List.length_map] at hlength hpos
  have hsum := sum_numbers_lt hlength
  have hproduct : ∀ w ∈ weights, (checked 64 (w.toNat * ransM) : Outcome Error ℕ)
      = ok (w.toNat * ransM) := fun w _ => by
    have hw := w.toNat_lt
    exact checked_of_lt (by rw [ransM]; omega)
  have hscaled : (weights.map fun w => w.toNat * ransM) = (numbers weights).map (· * ransM) := by
    rw [numbers, List.map_map]
    rfl
  have hquota : ∀ w ∈ numbers weights, quota ransM total w ≤ ransM := by
    intro w hw
    have hle : w ≤ total := htotal ▸ List.le_sum_of_mem hw
    exact Nat.div_le_of_le_mul (Nat.mul_le_mul_right _ hle)
  have hbumped : ((numbers weights).map (· * ransM)).map (fun product =>
      max (product / total % 2 ^ 32) 1) = bumped (numbers weights) := by
    rw [List.map_map, bumped, ← htotal]
    refine List.map_congr_left fun w hw => ?_
    have hfits := (hquota w hw).trans_lt (show ransM < 2 ^ 32 by decide)
    rw [quota] at hfits
    exact congrArg (max · 1) (Nat.mod_eq_of_lt hfits)
  have hremainder : ((numbers weights).map (· * ransM)).map (· % total)
      = (numbers weights).map (remainder ransM total) := by
    rw [List.map_map]
    rfl
  have hquotas : ((numbers weights).map (quota ransM (numbers weights).sum)).sum ≤ ransM :=
    sum_quota_le h.sum_pos
  have hbumpedsum : (bumped (numbers weights)).sum < 2 ^ 32 := by
    have hle := (sum_bumped_bounds (numbers weights)).2
    have hlen := h.length_le
    rw [ransM] at hquotas hlen hle
    omega
  have hreduced : (reduced (numbers weights)).1.sum ≤ ransM :=
    (sum_reduced h).le.trans (Nat.min_le_right _ _)
  obtain ⟨hnodup, hmem⟩ := byRemainder_take (numbers weights)
    (ransM - (reduced (numbers weights)).1.sum)
  have hraise : raiseLoop ((descending ((numbers weights).map (remainder ransM total))).take
      (ransM - (reduced (numbers weights)).1.sum)) (reduced (numbers weights)).1
      = ok (apportioned (numbers weights)) := by
    rw [htotal]
    refine raiseLoop_eq ?_ hmem
    have hle := List.length_take_le (ransM - (reduced (numbers weights)).1.sum)
      (byRemainder (numbers weights))
    rw [byRemainder] at hle
    rw [ransM] at *
    omega
  have hcut : (apportioned (numbers weights)).map (· % 2 ^ 16) = apportioned (numbers weights) := by
    have hfits : ∀ f ∈ apportioned (numbers weights), f % 2 ^ 16 = f := fun f hf =>
      Nat.mod_eq_of_lt ((List.le_sum_of_mem hf).trans_lt (by rw [sum_apportioned h]; decide))
    rw [List.map_congr_left hfits, List.map_id']
  rw [fromWeights]
  dsimp only
  rw [if_neg (by omega), ← numbers, checkedSum_of_lt (by omega), ok_bind, Nat.zero_add, ← htotal,
    if_neg (htotal ▸ h.sum_pos.ne'), mapAll_of hproduct, ok_bind, hscaled, hbumped,
    hremainder, checkedSum_of_lt (by rwa [Nat.zero_add]), ok_bind,
    Nat.zero_add, reduce_eq h, ok_bind]
  dsimp only
  rw [checkedSub_of_le hreduced, ok_bind, hraise, ok_bind, hcut]
  exact fromFreqs_eq (weighted h)

/-- The frequencies of a uniform model. -/
def even (symbols : ℕ) : List ℕ :=
  (List.range symbols).map fun index => ransM / symbols + if index < ransM % symbols then 1 else 0

lemma sum_even {symbols : ℕ} (h : 0 < symbols) : (even symbols).sum = ransM := by
  have hsplit (base extra n : ℕ) :
      ((List.range n).map fun index => base + if index < extra then 1 else 0).sum
        = n * base + min n extra := by
    induction n with
    | zero => simp
    | succ n ih =>
        rw [List.range_succ, List.map_append, List.sum_append, ih, List.map_singleton,
          List.sum_singleton, Nat.succ_mul]
        split <;> omega
  have hlt := Nat.mod_lt ransM h
  rw [even, hsplit, Nat.min_eq_right hlt.le]
  exact Nat.div_add_mod ransM symbols

/-- The frequencies of an accepted alphabet, as a model. -/
def uniform {symbols : ℕ} (h : 0 < symbols ∧ symbols ≤ ransM) : Model where
  freqs := even symbols
  pos := fun f hf => by
    obtain ⟨index, -, rfl⟩ := List.mem_map.mp hf
    have hbase := Nat.div_pos h.2 h.1
    omega
  sum_eq := sum_even h.1

lemma fromUniform_eq {symbols : ℕ} (h : 0 < symbols ∧ symbols ≤ ransM) :
    fromUniform symbols = ok (uniform h).tables := by
  have hvalue : ∀ index ∈ List.range symbols, (do
      let value ← checked 32 (ransM / symbols + if index < ransM % symbols then 1 else 0)
      .ok (value % 2 ^ 16) : Outcome Error ℕ)
        = ok (ransM / symbols + if index < ransM % symbols then 1 else 0) := by
    intro index _
    have hbase : ransM / symbols ≤ ransM := Nat.div_le_self _ _
    have hle : (ransM / symbols + if index < ransM % symbols then 1 else 0) ≤ ransM + 1 := by
      split <;> omega
    have hfits := hle.trans_lt (show ransM + 1 < 2 ^ 16 by decide)
    rw [checked_of_lt (hfits.trans (by decide)), ok_bind, Nat.mod_eq_of_lt hfits]
  rw [fromUniform, if_neg (by omega)]
  dsimp only
  rw [mapAll_of hvalue, ok_bind]
  exact fromFreqs_eq (uniform h)

/-! ## Valid tables -/

/-- The slot is in the range of the symbol. -/
def Owns (t : Tables) (symbol slot : ℕ) : Prop :=
  t.cumOf symbol ≤ slot ∧ slot < t.cumOf symbol + t.freqOf symbol

/-- The tables of `n` symbols: each has a slot, the slots are the mass, and each slot is looked up
as the one symbol that owns it. -/
structure Valid (t : Tables) (n : ℕ) : Prop where
  symbols_eq : t.symbols = n
  length_freq : t.freq.length = n
  freq_pos : ∀ f ∈ t.freq, 1 ≤ f
  freq_sum : t.freq.sum = ransM
  length_cum : t.cum.length = n + 1
  cum_eq : ∀ symbol ≤ n, t.cum[symbol]? = some (t.freq.take symbol).sum
  length_slots : t.slotToSymbol.length = ransM
  owner : ∀ slot < ransM, ∃ symbol, t.symbolForSlot slot = ok symbol ∧ symbol < n ∧
    t.Owns symbol slot ∧ ∀ other < n, t.Owns other slot → other = symbol

lemma cumOf_tables (m : Model) {symbol : ℕ} (h : symbol ≤ m.symbols) :
    m.tables.cumOf symbol = m.cum symbol := by
  rw [cumOf, Model.tables, List.getD_eq_getElem _ _ (by simp; omega), List.getElem_map,
    List.getElem_range]

lemma valid_tables (m : Model) : m.tables.Valid m.symbols where
  symbols_eq := rfl
  length_freq := rfl
  freq_pos := m.pos
  freq_sum := m.sum_eq
  length_cum := by rw [Model.tables, List.length_map, List.length_range]
  cum_eq := by
    intro symbol hle
    rw [Model.tables, List.getElem?_map, List.getElem?_range (by omega), Option.map_some, Model.cum,
      if_neg (show ¬ m.freqs.length < symbol from Nat.not_lt.mpr hle)]
  length_slots := m.slotToSymbol_length
  owner := by
    intro slot hslot
    obtain ⟨symbol, hlookup, hs, hcum, hlt⟩ := m.symbolForSlot_owner hslot
    refine ⟨symbol, hlookup, hs, ⟨?_, ?_⟩, fun other hother howns => ?_⟩
    · rwa [cumOf_tables m hs.le]
    · rwa [cumOf_tables m hs.le]
    · -- the other owner is looked up as well
      obtain ⟨hle, hbelow⟩ := howns
      rw [cumOf_tables m hother.le] at hle hbelow
      have hother' := Model.symbolForSlot_eq hother (show slot - m.cum other < m.freq other by
        have : m.tables.freqOf other = m.freq other := rfl
        omega)
      rw [Nat.add_sub_cancel' hle, hlookup] at hother'
      exact (Outcome.ok.inj hother').symm

/-- Building a model never fails where the weights or the alphabet are let in: no operation
overflows or underflows, nothing is cut off, and the tables are those of a model. -/
theorem construction_valid {weights : List UInt32} (hweights : Accepted (numbers weights))
    {symbols : ℕ} (hsymbols : 0 < symbols ∧ symbols ≤ ransM) :
    (∃ t, fromWeights weights = ok t ∧ t.Valid weights.length) ∧
      ∃ t, fromUniform symbols = ok t ∧ t.Valid symbols := by
  have hvalid := valid_tables (weighted hweights)
  have hvalid' := valid_tables (uniform hsymbols)
  have hlength : (weighted hweights).symbols = weights.length := by
    rw [Model.symbols, weighted, length_apportioned, numbers, List.length_map]
  have hlength' : (uniform hsymbols).symbols = symbols := by
    change (even symbols).length = symbols
    rw [even, List.length_map, List.length_range]
  rw [hlength] at hvalid
  rw [hlength'] at hvalid'
  exact ⟨⟨_, fromWeights_eq hweights, hvalid⟩, _, fromUniform_eq hsymbols, hvalid'⟩

/-- Weights with a zero among them, and an alphabet that does not divide the mass. -/
theorem construction_valid_skewed :
    (∃ t, fromWeights [1000000, 0, 1] = ok t ∧ t.Valid 3) ∧
      ∃ t, fromUniform 3 = ok t ∧ t.Valid 3 :=
  construction_valid ⟨by decide, by decide⟩ (by decide)

end Tables

end RustBinary.Entropy
