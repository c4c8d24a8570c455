import RustBinary.Entropy.Coder
import Mathlib.Data.List.GetD

/-!
# Decoding what was encoded

The states of the encoder stay in the interval of the coder, so that at most one word is
flushed in front of a symbol.  The decoder takes the symbols off in reverse order; after each
it holds the flushed state of the encoder, and it takes the word back only when the next symbol
is asked for.
-/

namespace RustBinary.Entropy

open Lib Lib.Outcome

/-! ## Slots -/

lemma slotsFrom_getElem? {k s r : ℕ} {freqs : List ℕ} (hs : s < freqs.length)
    (hr : r < freqs[s]) : (slotsFrom k freqs)[(freqs.take s).sum + r]? = some (k + s) := by
  induction freqs generalizing k s with
  | nil => exact absurd hs (Nat.not_lt_zero _)
  | cons f freqs ih =>
      rw [slotsFrom]
      cases s with
      | zero =>
          have hr' : r < (List.replicate f k).length := by simpa using hr
          rw [List.take_zero, List.sum_nil, Nat.zero_add, List.getElem?_append_left hr',
            List.getElem?_eq_getElem hr', List.getElem_replicate]
          rfl
      | succ s =>
          rw [List.take_succ_cons, List.sum_cons, Nat.add_assoc,
            List.getElem?_append_right (by simp), List.length_replicate, Nat.add_sub_cancel_left,
            ih (Nat.lt_of_succ_lt_succ hs) hr]
          congr 1
          omega

namespace Model

variable {model : Model} {symbol : ℕ}

lemma freq_eq (hs : symbol < model.freqs.length) : model.freq symbol = model.freqs[symbol] :=
  List.getD_eq_getElem _ _ hs

lemma freq_pos (hs : symbol < model.symbols) : 0 < model.freq symbol := by
  rw [freq_eq hs]
  exact model.pos _ (List.getElem_mem hs)

/-- The slots of a symbol are within the mass. -/
lemma cum_add_freq_le (hs : symbol < model.symbols) :
    model.cum symbol + model.freq symbol ≤ ransM := by
  have hsplit : (model.freqs.take (symbol + 1)).sum + (model.freqs.drop (symbol + 1)).sum
      = ransM := by
    rw [← List.sum_append, List.take_append_drop, model.sum_eq]
  have hlen : ¬ model.freqs.length < symbol := Nat.not_lt.mpr (Nat.le_of_lt hs)
  rw [cum, if_neg hlen, freq_eq hs]
  rw [List.take_succ_eq_append_getElem hs, List.sum_append, List.sum_singleton] at hsplit
  omega

/-- Every slot of a symbol is owned by it. -/
lemma symbolForSlot_eq (hs : symbol < model.symbols) {r : ℕ} (hr : r < model.freq symbol) :
    model.symbolForSlot (model.cum symbol + r) = ok symbol := by
  have hlen : ¬ model.freqs.length < symbol := Nat.not_lt.mpr (Nat.le_of_lt hs)
  rw [freq_eq hs] at hr
  rw [symbolForSlot, slotToSymbol, cum, if_neg hlen, slotsFrom_getElem? hs hr, Nat.zero_add,
    orPanic_some]

end Model

/-! ## One symbol -/

/-- The interval of the coder. -/
def RansEncoder.InRange (e : RansEncoder) : Prop := ransL ≤ e.state ∧ e.state < 2 ^ 47

lemma RansEncoder.inRange_new : RansEncoder.new.InRange := ⟨Nat.le_refl _, by decide⟩

/-- At most one word is flushed. -/
lemma flush_eq {e : RansEncoder} (he : e.InRange) {freq : ℕ} (hfreq : 0 < freq) :
    (e.state < freq * 2 ^ 32 ∧ RansEncoder.flush 5 freq e = ok e) ∨
      (freq * 2 ^ 32 ≤ e.state ∧ e.state / 2 ^ 16 < ransL ∧ freq * 2 ^ 16 ≤ e.state / 2 ^ 16 ∧
        e.state / 2 ^ 16 < freq * 2 ^ 32 ∧
        RansEncoder.flush 5 freq e = ok ⟨e.state / 2 ^ 16, e.bytes ++ leBytes 2 e.state⟩) := by
  rcases Nat.lt_or_ge e.state (freq * 2 ^ 32) with hlt | hge
  · refine Or.inl ⟨hlt, ?_⟩
    rw [RansEncoder.flush, Nat.shiftLeft_eq, if_neg (by omega)]
  · have hbelow : e.state < 2 ^ 16 * 2 ^ 15 * 2 ^ 16 := he.2.trans_eq (by norm_num)
    have hlarge : freq * (2 ^ 16 * 2 ^ 16) ≤ e.state := by omega
    obtain ⟨hlow, hquot, hbound⟩ := Ans.flushed hfreq (by decide) hbelow hlarge
    have hlow : e.state / 2 ^ 16 < ransL := hlow.trans_eq (by norm_num [ransL])
    have hbound : e.state / 2 ^ 16 < freq * 2 ^ 32 := hbound.trans_eq (by norm_num)
    refine Or.inr ⟨hge, hlow, hquot, hbound, ?_⟩
    rw [RansEncoder.flush, Nat.shiftLeft_eq, if_pos hge, RansEncoder.flush, Nat.shiftLeft_eq,
      if_neg (by dsimp only; rw [Nat.shiftRight_eq_div_pow]; omega), Nat.shiftRight_eq_div_pow]

lemma renorm_of_le {d : RansDecoder} (h : ransL ≤ d.state) : d.renorm = ok d := by
  rw [RansDecoder.renorm, RansDecoder.renormLoop, if_neg (Nat.not_lt.mpr h)]

/-- Renormalising once is enough, so that a pending word changes nothing. -/
lemma getSymbol_of_renorm {d d' : RansDecoder} (h : d.renorm = ok d') (hle : ransL ≤ d'.state)
    (model : Model) : d.getSymbol model = d'.getSymbol model := by
  rw [RansDecoder.getSymbol, RansDecoder.getSymbol, h, renorm_of_le hle]

/-- The flushed word is taken back. -/
lemma renorm_word {state : ℕ} (hlow : state / 2 ^ 16 < ransL) (hle : ransL ≤ state)
    (bytes rest : List UInt8) :
    RansDecoder.renorm ⟨state / 2 ^ 16, bytes ++ leBytes 2 state ++ rest,
        (bytes ++ leBytes 2 state).length⟩ =
      ok ⟨state, bytes ++ leBytes 2 state ++ rest, bytes.length⟩ := by
  have hlen : (bytes ++ leBytes 2 state).length = bytes.length + 2 := by simp
  have hword : ((bytes ++ leBytes 2 state ++ rest).drop bytes.length).take 2 = leBytes 2 state := by
    rw [List.append_assoc, List.drop_left]
    exact List.take_left' (length_leBytes 2 state)
  have hnat : leNat (leBytes 2 state) = state % 2 ^ 16 := by
    simp only [leBytes, leNat, UInt8.toNat_ofNat']
    omega
  have hjoin : (state / 2 ^ 16) <<< 16 ||| state % 2 ^ 16 = state := by
    rw [← Nat.shiftLeft_add_eq_or_of_lt (Nat.mod_lt _ (by decide)), Nat.shiftLeft_eq]
    omega
  rw [RansDecoder.renorm, RansDecoder.renormLoop]
  dsimp only
  rw [hlen, if_pos hlow, if_neg (by omega), Nat.add_sub_cancel, hword, hnat, hjoin,
    RansDecoder.renormLoop]
  dsimp only
  rw [if_neg (Nat.not_lt.mpr hle)]

/-- One symbol: the encoder stays in its interval and appends a word or nothing, and the
decoder takes the symbol off and is left with the word pending. -/
lemma putSymbol_getSymbol {e : RansEncoder} (he : e.InRange) {model : Model} {symbol : ℕ}
    (hs : symbol < model.symbols) :
    ∃ e₁ : RansEncoder, e.putSymbol model symbol = ok e₁ ∧ e₁.InRange ∧
      (∃ w, e₁.bytes = e.bytes ++ w ∧ (w.length = 0 ∨ w.length = 2)) ∧
      ∀ rest, ∃ x, RansDecoder.getSymbol ⟨e₁.state, e₁.bytes ++ rest, e₁.bytes.length⟩ model
          = ok (symbol, ⟨x, e₁.bytes ++ rest, e₁.bytes.length⟩) ∧
        RansDecoder.renorm ⟨x, e₁.bytes ++ rest, e₁.bytes.length⟩
          = ok ⟨e.state, e₁.bytes ++ rest, e.bytes.length⟩ ∧
        (e.state < 2 ^ 32 → x = e.state ∧ e₁.bytes.length = e.bytes.length) := by
  have hf := Model.freq_pos hs
  have hc := Model.cum_add_freq_le hs
  -- the state on which the symbol is put, and the word that has been flushed for it
  obtain ⟨x, w, hflush, hlen, hbound, hquot, hpending⟩ : ∃ x w,
      RansEncoder.flush 5 (model.freq symbol) e = ok ⟨x, e.bytes ++ w⟩ ∧
      (w.length = 0 ∨ w.length = 2) ∧
      x < model.freq symbol * 2 ^ 32 ∧ model.freq symbol * 2 ^ 16 ≤ x ∧
      ∀ rest, RansDecoder.renorm ⟨x, e.bytes ++ w ++ rest, (e.bytes ++ w).length⟩ =
          ok ⟨e.state, e.bytes ++ w ++ rest, e.bytes.length⟩ ∧
        (e.state < 2 ^ 32 → x = e.state ∧ w = []) := by
    rcases flush_eq he hf with ⟨hlt, hflush⟩ | ⟨hge, hlow, hquot, hbound, hflush⟩
    · refine ⟨e.state, [], by rw [hflush, List.append_nil], by simp, hlt, ?_, fun rest => ?_⟩
      · have hle := he.1
        rw [ransL] at hle
        rw [ransM] at hc
        omega
      · rw [List.append_nil]
        exact ⟨renorm_of_le he.1, fun _ => ⟨rfl, rfl⟩⟩
    · refine ⟨_, _, hflush, by simp, hbound, hquot, fun rest => ⟨renorm_word hlow he.1 _ _, ?_⟩⟩
      omega
  -- the state with the symbol on top
  obtain ⟨y, hy⟩ : ∃ y, y = Ans.push ransM (model.freq symbol) (model.cum symbol) x := ⟨_, rfl⟩
  have hupper : y < 2 ^ 47 := by
    rw [hy]
    exact (Ans.push_lt (q := 2 ^ 16) (b := 2 ^ 16) hf hc (hbound.trans_eq (by norm_num))).trans_eq
      (by norm_num [ransM])
  have hlower : ransL ≤ y := by
    rw [hy]
    exact le_trans (by decide) (Ans.le_push (q := 2 ^ 16) hf hquot)
  refine ⟨⟨y, e.bytes ++ w⟩, ?_, ⟨hlower, hupper⟩, ⟨w, rfl, hlen⟩, fun rest =>
    ⟨x, ?_, (hpending rest).1, fun hsmall => ?_⟩⟩
  · have hput : x / model.freq symbol * ransM + model.cum symbol + x % model.freq symbol = y :=
      hy.symm
    rw [RansEncoder.putSymbol]
    dsimp only
    rw [if_neg (by omega), hflush, ok_bind]
    dsimp only
    rw [hput, checked_of_lt (hupper.trans (by decide)), ok_bind]
  · have hslot : y % ransM = model.cum symbol + x % model.freq symbol := hy ▸ Ans.push_mod hf hc
    have htake : y / ransM * model.freq symbol + y % ransM - model.cum symbol = x := by
      rw [hy]
      exact Ans.pull_push hf hc
    have hfits : y / ransM * model.freq symbol + y % ransM < 2 ^ 64 := by
      rw [ransM] at hc
      omega
    rw [RansDecoder.getSymbol, renorm_of_le hlower, ok_bind]
    dsimp only
    rw [hslot, Model.symbolForSlot_eq hs (Nat.mod_lt _ hf), ok_bind, ← hslot,
      checked_of_lt hfits, ok_bind, if_pos (by omega), htake]
  · obtain ⟨rfl, rfl⟩ := (hpending rest).2 hsmall
    exact ⟨rfl, by rw [List.append_nil]⟩

/-! ## Sequences -/

/-- Every symbol is in the alphabet of its model. -/
def InAlphabets (pairs : List (Model × ℕ)) : Prop := ∀ p ∈ pairs, p.2 < p.1.symbols

lemma getSymbols_append (models rest : List Model) (d : RansDecoder) :
    getSymbols (models ++ rest) d = (do
      let (symbols, d) ← getSymbols models d
      let (more, d) ← getSymbols rest d
      .ok (symbols ++ more, d)) := by
  induction models generalizing d with
  | nil =>
      rw [List.nil_append, getSymbols, ok_bind]
      dsimp only
      cases getSymbols rest d <;> rfl
  | cons model models ih =>
      rw [List.cons_append, getSymbols, getSymbols]
      cases d.getSymbol model with
      | err e => rfl
      | panic => rfl
      | diverge => rfl
      | ok read =>
          obtain ⟨symbol, d⟩ := read
          simp only [ok_bind, ih]
          cases getSymbols models d with
          | err e => rfl
          | panic => rfl
          | diverge => rfl
          | ok read =>
              obtain ⟨symbols, d⟩ := read
              simp only [ok_bind]
              cases getSymbols rest d <;> rfl

/-- A sequence comes back in reverse, and the decoder ends where the encoder began. -/
lemma putSymbols_getSymbols {pairs : List (Model × ℕ)} (hpairs : InAlphabets pairs)
    {e : RansEncoder} (he : e.InRange) :
    ∃ e₁ : RansEncoder, putSymbols pairs e = ok e₁ ∧ e₁.InRange ∧
      (∃ w, e₁.bytes = e.bytes ++ w ∧ w.length ≤ 2 * pairs.length) ∧
      ∀ rest, ∃ d, getSymbols (pairs.reverse.map Prod.fst)
          ⟨e₁.state, e₁.bytes ++ rest, e₁.bytes.length⟩ = ok (pairs.reverse.map Prod.snd, d) ∧
        d.renorm = ok ⟨e.state, e₁.bytes ++ rest, e.bytes.length⟩ ∧
        (e.state < 2 ^ 32 → d = ⟨e.state, e₁.bytes ++ rest, e.bytes.length⟩) := by
  induction pairs generalizing e with
  | nil =>
      exact ⟨e, rfl, he, ⟨[], (List.append_nil _).symm, Nat.zero_le _⟩,
        fun rest => ⟨_, rfl, renorm_of_le he.1, fun _ => rfl⟩⟩
  | cons p pairs ih =>
      obtain ⟨model, symbol⟩ := p
      obtain ⟨e₁, hput, he₁, ⟨w₁, hw₁, hlen₁⟩, hget⟩ :=
        putSymbol_getSymbol he (hpairs _ List.mem_cons_self)
      obtain ⟨e₂, hputs, he₂, ⟨w₂, hw₂, hlen₂⟩, hgets⟩ :=
        ih (fun p hp => hpairs p (List.mem_cons_of_mem _ hp)) he₁
      have hlen : (w₁ ++ w₂).length ≤ 2 * (pairs.length + 1) := by
        rw [List.length_append]
        omega
      refine ⟨e₂, ?_, he₂, ⟨w₁ ++ w₂, by rw [hw₂, hw₁, List.append_assoc], hlen⟩, fun rest => ?_⟩
      · rw [putSymbols, hput, ok_bind, hputs]
      · -- the later symbols first; then the word of the first one is still pending
        obtain ⟨d, hlater, hrenorm, -⟩ := hgets rest
        obtain ⟨x, hfirst, hrenorm₁, hexact⟩ := hget (w₂ ++ rest)
        have hpayload : e₁.bytes ++ (w₂ ++ rest) = e₂.bytes ++ rest := by
          rw [hw₂, List.append_assoc]
        rw [hpayload] at hfirst hrenorm₁
        refine ⟨_, ?_, hrenorm₁, fun hsmall => ?_⟩
        · rw [List.reverse_cons, List.map_append, List.map_append, getSymbols_append, hlater,
            ok_bind]
          dsimp only
          rw [List.map_singleton, getSymbols, getSymbol_of_renorm hrenorm he₁.1, hfirst]
          rfl
        · obtain ⟨hstate, hpos⟩ := hexact hsmall
          rw [hstate, hpos]

end RustBinary.Entropy
