import RustBinary.Entropy.RoundTrip

/-!
# The interval of the coder

The encoder never leaves its interval, and the words it flushes are those the decoder takes
back.  The decoder makes no such promise: it is given any state and any payload.  What it does
keep is that its state is one of 64 bits and its position one of the payload, and with that its
arithmetic stays within the machine.
-/

namespace RustBinary.Entropy

open Lib Lib.Outcome

/-! ## Owners of slots -/

lemma slotsFrom_length (k : ℕ) (freqs : List ℕ) : (slotsFrom k freqs).length = freqs.sum := by
  induction freqs generalizing k with
  | nil => rfl
  | cons f freqs ih => rw [slotsFrom, List.length_append, List.length_replicate, ih, List.sum_cons]

/-- Every slot below the sum belongs to a symbol. -/
lemma exists_owner {freqs : List ℕ} {slot : ℕ} (h : slot < freqs.sum) :
    ∃ s r, ∃ hs : s < freqs.length, r < freqs[s] ∧ slot = (freqs.take s).sum + r := by
  induction freqs generalizing slot with
  | nil => exact absurd h (Nat.not_lt_zero _)
  | cons f freqs ih =>
      rw [List.sum_cons] at h
      rcases Nat.lt_or_ge slot f with hlt | hge
      · exact ⟨0, slot, Nat.zero_lt_succ _, hlt, (Nat.zero_add _).symm⟩
      · obtain ⟨s, r, hs, hr, hslot⟩ := ih (show slot - f < freqs.sum by omega)
        refine ⟨s + 1, r, Nat.succ_lt_succ hs, hr, ?_⟩
        rw [List.take_succ_cons, List.sum_cons]
        omega

namespace Model

lemma slotToSymbol_length (model : Model) : model.slotToSymbol.length = ransM := by
  rw [slotToSymbol, slotsFrom_length, model.sum_eq]

/-- The lookup of a slot gives a symbol of the alphabet, and the slot is one of its own. -/
lemma symbolForSlot_owner (model : Model) {slot : ℕ} (h : slot < ransM) :
    ∃ symbol, model.symbolForSlot slot = ok symbol ∧ symbol < model.symbols ∧
      model.cum symbol ≤ slot ∧ slot < model.cum symbol + model.freq symbol := by
  rw [← model.sum_eq] at h
  obtain ⟨s, r, hs, hr, rfl⟩ := exists_owner h
  have hcum : model.cum s = (model.freqs.take s).sum := by
    rw [cum, if_neg (Nat.not_lt.mpr hs.le)]
  have hfreq := freq_eq hs
  have howner : model.symbolForSlot (model.cum s + r) = ok s := symbolForSlot_eq hs (hfreq ▸ hr)
  rw [hcum] at howner
  exact ⟨s, howner, hs, hcum.le.trans (Nat.le_add_right _ _), by rw [hcum, hfreq]; omega⟩

end Model

/-! ## The decoder -/

namespace RansDecoder

/-- A state of 64 bits and a position in the payload. -/
structure Valid (d : RansDecoder) : Prop where
  state_lt : d.state < 2 ^ 64
  pos_le : d.pos ≤ d.bytes.length

lemma valid_new {state : ℕ} (hstate : state < 2 ^ 64) (payload : List UInt8) :
    (RansDecoder.new state payload).Valid := ⟨hstate, Nat.le_refl _⟩

/-- The state with one more word is below the interval's end: no bit is shifted out. -/
lemma refill_lt {state word : ℕ} (hstate : state < ransL) (hword : word < 2 ^ 16) :
    state <<< 16 ||| word < 2 ^ 47 := by
  rw [← Nat.shiftLeft_add_eq_or_of_lt hword, Nat.shiftLeft_eq]
  rw [ransL] at hstate
  omega

/-- What renormalising makes of a decoder: the state has reached the interval, and it is either
the one that was given or one that the words of the payload have been shifted into. -/
structure Renormed (d d' : RansDecoder) : Prop where
  le_state : ransL ≤ d'.state
  state_eq_or_lt : d' = d ∨ d'.state < 2 ^ 47
  bytes_eq : d'.bytes = d.bytes
  pos_le : d'.pos ≤ d.pos

lemma renormLoop_spec (n : ℕ) (d : RansDecoder) (hpos : d.pos ≤ d.bytes.length) (hn : d.pos < n) :
    (renormLoop n d).Returned ∧ ∀ d', renormLoop n d = ok d' → d.Renormed d' := by
  induction n generalizing d with
  | zero => exact absurd hn (Nat.not_lt_zero _)
  | succ n ih =>
      rw [renormLoop]
      split
      · next hlow =>
          split
          · exact ⟨returned_err _, by simp⟩
          · next hwords =>
              -- two bytes are left, and they are the next word
              have hlen : ((d.bytes.drop (d.pos - 2)).take 2).length = 2 := by
                rw [List.length_take, List.length_drop]
                omega
              have hword : leNat ((d.bytes.drop (d.pos - 2)).take 2) < 2 ^ 16 :=
                (leNat_lt _).trans_eq (by rw [hlen]; norm_num)
              have hstate := refill_lt hlow hword
              obtain ⟨hreturned, hspec⟩ := ih
                { d with
                  state := d.state <<< 16 ||| leNat ((d.bytes.drop (d.pos - 2)).take 2)
                  pos := d.pos - 2 }
                (show d.pos - 2 ≤ d.bytes.length by omega) (show d.pos - 2 < n by omega)
              refine ⟨hreturned, fun d' hd' => ?_⟩
              obtain ⟨hle, hor, hbytes, hposle⟩ := hspec d' hd'
              refine ⟨hle, Or.inr ?_, hbytes, hposle.trans (Nat.sub_le _ _)⟩
              rcases hor with rfl | hlt
              · exact hstate
              · exact hlt
      · next hlow =>
          refine ⟨returned_ok _, fun d' hd' => ?_⟩
          obtain rfl := Outcome.ok.inj hd'
          exact ⟨Nat.le_of_not_lt hlow, Or.inl rfl, rfl, Nat.le_refl _⟩

lemma Renormed.valid {d d' : RansDecoder} (h : d.Renormed d') (hd : d.Valid) : d'.Valid := by
  refine ⟨?_, h.bytes_eq ▸ h.pos_le.trans hd.pos_le⟩
  rcases h.state_eq_or_lt with rfl | hlt
  · exact hd.state_lt
  · exact hlt.trans (by decide)

lemma renorm_spec {d : RansDecoder} (hd : d.Valid) :
    d.renorm.Returned ∧ ∀ d', d.renorm = ok d' → d.Renormed d' :=
  renormLoop_spec _ d hd.pos_le (Nat.lt_succ_self _)

lemma getSymbol_spec {d : RansDecoder} (hd : d.Valid) (model : Model) :
    (d.getSymbol model).Returned ∧
      ∀ symbol d', d.getSymbol model = ok (symbol, d') → symbol < model.symbols ∧ d'.Valid := by
  obtain ⟨hreturned, hspec⟩ := renorm_spec hd
  rw [getSymbol]
  cases hrenorm : d.renorm with
  | err e => exact ⟨returned_err _, by simp⟩
  | panic => exact absurd hreturned (by simp [hrenorm])
  | diverge => exact absurd hreturned (by simp [hrenorm])
  | ok d₁ =>
      have hd₁ := (hspec d₁ hrenorm).valid hd
      have hslot : d₁.state % ransM < ransM := Nat.mod_lt _ (by decide)
      obtain ⟨symbol, hlookup, hs, hcum, -⟩ := model.symbolForSlot_owner hslot
      have hpull := Ans.before_pull_le (y := d₁.state) (Model.cum_add_freq_le hs)
      have hlt := hd₁.state_lt
      simp only [ok_bind, hlookup]
      rw [checked_of_lt (hpull.trans_lt hlt), ok_bind, if_pos (by omega)]
      refine ⟨returned_ok _, fun symbol' d' h => ?_⟩
      rw [Outcome.ok.injEq, Prod.mk.injEq] at h
      obtain ⟨rfl, rfl⟩ := h
      exact ⟨hs, show _ - _ < 2 ^ 64 by omega, hd₁.pos_le⟩

end RansDecoder

/-- A whole run of the decoder comes back, from any state and any payload. -/
lemma getSymbols_returned (models : List Model) {d : RansDecoder} (hd : d.Valid) :
    (getSymbols models d).Returned := by
  induction models generalizing d with
  | nil => exact returned_ok _
  | cons model models ih =>
      obtain ⟨hreturned, hspec⟩ := RansDecoder.getSymbol_spec hd model
      rw [getSymbols]
      refine bind_returned_of hreturned fun read hread => ?_
      obtain ⟨symbol, d₁⟩ := read
      refine bind_returned_of (ih (hspec symbol d₁ hread).2) fun _ _ => ?_
      exact returned_ok _

/-! ## The interval -/

/-- Both sides of the interval.  After any run of the encoder the next symbol finds its state in
the interval and leaves it there, having flushed a word or nothing; the decoder that takes the
symbol off has then exactly this word to take back.  And a decoder of any state and payload
never leaves what the machine can do. -/
theorem state_interval {pairs : List (Model × ℕ)} {model : Model} {symbol : ℕ}
    (hpairs : InAlphabets (pairs ++ [(model, symbol)])) {d : RansDecoder} (hd : d.Valid) :
    (∃ e e₁ w, putSymbols pairs RansEncoder.new = ok e ∧ e.putSymbol model symbol = ok e₁ ∧
      e.InRange ∧ e₁.InRange ∧ e₁.bytes = e.bytes ++ w ∧ (w.length = 0 ∨ w.length = 2) ∧
      ∀ rest, ∃ x, RansDecoder.getSymbol ⟨e₁.state, e₁.bytes ++ rest, e₁.bytes.length⟩ model
          = ok (symbol, ⟨x, e₁.bytes ++ rest, e₁.bytes.length⟩) ∧
        RansDecoder.renorm ⟨x, e₁.bytes ++ rest, e₁.bytes.length⟩
          = ok ⟨e.state, e₁.bytes ++ rest, e₁.bytes.length - w.length⟩) ∧
    (∀ models, (getSymbols models d).Returned) ∧
    d.renorm.Returned ∧
    (∀ d', d.renorm = ok d' → d.Renormed d' ∧ d'.Valid ∧
      ∀ other : Model, d'.state % ransM < other.slotToSymbol.length) ∧
    ∀ other, (d.getSymbol other).Returned ∧
      ∀ s d', d.getSymbol other = ok (s, d') → s < other.symbols ∧ d'.Valid := by
  obtain ⟨hreturned, hspec⟩ := RansDecoder.renorm_spec hd
  refine ⟨?_, fun models => getSymbols_returned models hd, hreturned, fun d' hd' =>
    ⟨hspec d' hd', (hspec d' hd').valid hd, fun other => ?_⟩, RansDecoder.getSymbol_spec hd⟩
  · have hbefore : InAlphabets pairs := fun p hp => hpairs p (List.mem_append_left _ hp)
    have hs : symbol < model.symbols := hpairs (model, symbol) (by simp)
    obtain ⟨e, hput, he, -, -⟩ := putSymbols_getSymbols hbefore RansEncoder.inRange_new
    obtain ⟨e₁, hsymbol, he₁, ⟨w, hw, hlen⟩, hget⟩ := putSymbol_getSymbol he hs
    refine ⟨e, e₁, w, hput, hsymbol, he, he₁, hw, hlen, fun rest => ?_⟩
    obtain ⟨x, hx, hrenorm, -⟩ := hget rest
    refine ⟨x, hx, ?_⟩
    rw [hrenorm, show e₁.bytes.length - w.length = e.bytes.length by
      rw [hw, List.length_append, Nat.add_sub_cancel]]
  · rw [Model.slotToSymbol_length]
    exact Nat.mod_lt _ (by decide)

/-- Two symbols of a model that has two, and a decoder that starts outside the interval. -/
theorem state_interval_pair :
    let even : Model := ⟨[16384, 16384], by decide, by decide⟩
    (∃ e e₁ w, putSymbols [(even, 1)] RansEncoder.new = ok e ∧ e.putSymbol even 0 = ok e₁ ∧
      e.InRange ∧ e₁.InRange ∧ e₁.bytes = e.bytes ++ w ∧ (w.length = 0 ∨ w.length = 2) ∧
      ∀ rest, ∃ x, RansDecoder.getSymbol ⟨e₁.state, e₁.bytes ++ rest, e₁.bytes.length⟩ even
          = ok (0, ⟨x, e₁.bytes ++ rest, e₁.bytes.length⟩) ∧
        RansDecoder.renorm ⟨x, e₁.bytes ++ rest, e₁.bytes.length⟩
          = ok ⟨e.state, e₁.bytes ++ rest, e₁.bytes.length - w.length⟩) ∧
    (∀ models, (getSymbols models (.new (2 ^ 64 - 1) [1, 2, 3])).Returned) := by
  intro even
  have hpairs : InAlphabets ([(even, 1)] ++ [(even, 0)]) := by
    intro p hp
    rcases List.mem_cons.mp hp with rfl | hp
    · decide
    · rw [List.mem_singleton.mp hp]
      decide
  have h := state_interval hpairs
    (RansDecoder.valid_new (show 2 ^ 64 - 1 < 2 ^ 64 by decide) [1, 2, 3])
  exact ⟨h.1, h.2.1⟩

end RustBinary.Entropy
