import RustBinary.Adaptive.Texts

/-!
# The sizes of adaptive frames

The size that is told for a frame, the encoder that makes a vector of it and the encoder that
writes it to a slice of the caller: they agree on every collection and every string.
-/

namespace RustBinary.Adaptive

open Lib Lib.Act

/-- A size, an encoder into a vector and an encoder into a slice that agree: the slice receives the
bytes of the vector, or it is left as it is. -/
structure Exact (size : Outcome Error ℕ) (owned : Outcome Error (List UInt8))
    (intoSlice : Act (List UInt8) Error ℕ) : Prop where
  returned : size.Returned
  owned_size : ∀ bytes, owned = .ok bytes → size = .ok bytes.length
  written : ∀ n, size = .ok n → ∃ bytes : List UInt8, bytes.length = n ∧
    (n ≤ isizeMax → owned = .ok bytes) ∧
    ∀ output : List UInt8, intoSlice output =
      if output.length < n then (.err (.bufferTooSmall n output.length), output)
      else (.ok n, bytes ++ output.drop n)
  failed : ∀ e, size = .err e → ∀ output, intoSlice output = (.err e, output)

/-- Agreement, by a layout on which all three depend. -/
lemma Exact.of_layout {α : Type} {layout : Outcome Error α} (required : α → ℕ)
    {owned : Outcome Error (List UInt8)} {intoSlice : Act (List UInt8) Error ℕ}
    (hlayout : layout.Returned)
    (howned : ∀ bytes, owned = .ok bytes → ∃ a, layout = .ok a ∧ required a = bytes.length)
    (hwritten : ∀ a, layout = .ok a → ∃ bytes : List UInt8, bytes.length = required a ∧
      (required a ≤ isizeMax → owned = .ok bytes) ∧
      ∀ output : List UInt8, required a ≤ output.length →
        intoSlice output = (.ok (required a), bytes ++ output.drop (required a)))
    (hshort : ∀ a, layout = .ok a → ∀ output : List UInt8, output.length < required a →
      intoSlice output = (.err (.bufferTooSmall (required a) output.length), output))
    (hfailed : ∀ e, layout = .err e → ∀ output, intoSlice output = (.err e, output)) :
    Exact (layout >>= fun a => pure (required a)) owned intoSlice := by
  refine ⟨Outcome.bind_returned hlayout fun _ => trivial, ?_, ?_, ?_⟩
  · intro bytes h
    obtain ⟨a, ha, hlength⟩ := howned bytes h
    rw [ha, Outcome.ok_bind, hlength]
    rfl
  · intro n h
    obtain ⟨a, ha, hpure⟩ := Outcome.bind_eq_ok.mp h
    cases hpure
    obtain ⟨bytes, hlength, hvec, hinto⟩ := hwritten a ha
    refine ⟨bytes, hlength, hvec, fun output => ?_⟩
    split
    · next hlt => exact hshort a ha output hlt
    · next hlt => exact hinto output (Nat.le_of_not_lt hlt)
  · intro e h
    cases ha : layout with
    | ok a =>
        rw [ha] at h
        cases h
    | err e' =>
        rw [ha] at h
        cases h
        exact hfailed e ha
    | panic =>
        rw [ha] at hlayout
        exact hlayout.elim
    | diverge =>
        rw [ha] at hlayout
        exact hlayout.elim

/-! ## Integer collections -/

lemma AdaptiveConfig.enforceCollectionLimit_returned (c : AdaptiveConfig) (length : ℕ) :
    (c.enforceCollectionLimit length).Returned := by
  rw [enforceCollectionLimit]
  cases c.base.collectionLimit with
  | none => trivial
  | some limit =>
      dsimp only
      split <;> trivial

lemma payloadSize_returned (strategy : CollectionStrategy) (values : List Int64) :
    (payloadSize strategy values).Returned := by
  obtain ⟨ws, hws⟩ := words_ok strategy values
  rw [payloadSize, hws]
  exact Outcome.okOr_returned _ _

lemma compareSizes_returned (values : List Int64) : (compareSizes values).Returned :=
  Outcome.bind_returned (payloadSize_returned _ _) fun _ =>
    Outcome.bind_returned (payloadSize_returned _ _) fun _ =>
      Outcome.bind_returned (payloadSize_returned _ _) fun _ => trivial

lemma choose_returned (values : List Int64) (mode : AdaptiveMode) :
    (choose values mode).Returned := by
  cases mode with
  | off => exact Outcome.bind_returned (payloadSize_returned _ _) fun _ => trivial
  | exact => exact compareSizes_returned values
  | heuristic =>
      rw [choose]
      split
      · exact compareSizes_returned values
      · exact Outcome.bind_returned (compareSizes_returned _) fun _ =>
          Outcome.bind_returned (payloadSize_returned _ _) fun _ => trivial

lemma limitedLayout_returned (c : AdaptiveConfig) (values : List Int64) :
    (limitedLayout c values).Returned :=
  Outcome.bind_returned (c.enforceCollectionLimit_returned _) fun _ =>
    Outcome.bind_returned
      (Outcome.bind_returned (choose_returned _ _) fun _ =>
        Outcome.bind_returned (Outcome.okOr_returned _ _) fun _ => trivial)
      fun _ => Outcome.bind_returned (enforceByteLimit_returned _ _) fun _ => trivial

lemma encodedI64SliceSize_eq_ok {c : AdaptiveConfig} {values : List Int64} {n : ℕ} :
    encodedI64SliceSize c values = .ok n ↔
      ∃ strategy, limitedLayout c values = .ok (strategy, n) := by
  constructor
  · intro h
    obtain ⟨⟨strategy, required⟩, hlayout, hpure⟩ := Outcome.bind_eq_ok.mp h
    cases hpure
    exact ⟨strategy, hlayout⟩
  · rintro ⟨strategy, h⟩
    rw [encodedI64SliceSize, h]
    rfl

/-- The three functions on a collection go by the layout of its frame. -/
lemma integers_exact (c : AdaptiveConfig) (values : Slice 8 Int64) :
    Exact (encodedI64SliceSize c values.elems) (encodeI64Slice c values.elems)
      (encodeI64SliceIntoSlice c values.elems) := by
  refine Exact.of_layout Prod.snd (limitedLayout_returned c values.elems) ?_ ?_ ?_ ?_
  · intro bytes h
    obtain ⟨strategy, ws, hfits, rfl⟩ := (encodeI64Slice_eq_ok values.length_le).mp h
    have hmax := hfits.size_le.trans (show isizeMax ≤ u64Max by decide)
    exact ⟨(strategy, _), (limitedLayout_eq_ok hfits.words_eq).mpr
      ⟨hfits.collection_le, hfits.chosen, rfl, hmax, hfits.limit_le⟩, rfl⟩
  · rintro ⟨strategy, n⟩ hlayout
    obtain ⟨ws, hws⟩ := words_ok strategy values.elems
    obtain ⟨hcollection, hchosen, rfl, -, hlimit⟩ := (limitedLayout_eq_ok hws).mp hlayout
    refine ⟨frame strategy values.elems.length ws, rfl, fun hsize => ?_, fun output hroom => ?_⟩
    · exact (encodeI64Slice_eq_ok values.length_le).mpr
        ⟨strategy, ws, ⟨hcollection, hchosen, hws, hlimit, hsize⟩, rfl⟩
    · exact encodeI64SliceIntoSlice_of hws hlayout hroom
  · rintro ⟨strategy, n⟩ hlayout output hshort
    rw [encodeI64SliceIntoSlice, hlayout]
    refine (bind_of_ok (call_run _ _)).trans ?_
    dsimp only
    rw [get_bind_run, if_pos hshort, throw_run]
  · intro e hlayout output
    rw [encodeI64SliceIntoSlice, hlayout]
    rfl

lemma bestStrategy_le (raw delta rle : ℕ) :
    (bestStrategy raw delta rle).2 ≤ raw ∧ (bestStrategy raw delta rle).2 ≤ delta ∧
      (bestStrategy raw delta rle).2 ≤ rle := by
  rw [bestStrategy]
  split
  · omega
  · split <;> omega

/-- The comparison finds the smallest payload. -/
lemma compareSizes_le {values : List Int64} {strategy other : CollectionStrategy} {size : ℕ}
    {ws : List ℕ} (h : compareSizes values = .ok (strategy, size))
    (hws : words other values = .ok ws) : size ≤ (spell ws).length := by
  obtain ⟨raw, hraw, h⟩ := Outcome.bind_eq_ok.mp h
  obtain ⟨delta, hdelta, h⟩ := Outcome.bind_eq_ok.mp h
  obtain ⟨rle, hrle, h⟩ := Outcome.bind_eq_ok.mp h
  rw [Outcome.pure_eq_ok, Outcome.ok.injEq] at h
  obtain ⟨hle₁, hle₂, hle₃⟩ := bestStrategy_le raw delta rle
  rw [h] at hle₁ hle₂ hle₃
  cases other with
  | raw => exact hle₁.trans_eq ((payloadSize_eq_ok hws).mp hraw).1
  | delta => exact hle₂.trans_eq ((payloadSize_eq_ok hws).mp hdelta).1
  | runLength => exact hle₃.trans_eq ((payloadSize_eq_ok hws).mp hrle).1

/-- The frame that the comparison of all sizes chooses is no longer than any other one. -/
lemma exact_minimal {c : AdaptiveConfig} {values : List Int64} {n : ℕ}
    {other : CollectionStrategy} {ws : List ℕ} (hexact : c.mode = .exact)
    (h : encodedI64SliceSize c values = .ok n) (hws : words other values = .ok ws) :
    n ≤ (frame other values.length ws).length := by
  obtain ⟨strategy, hlayout⟩ := encodedI64SliceSize_eq_ok.mp h
  obtain ⟨chosen, hchosen⟩ := words_ok strategy values
  obtain ⟨-, ⟨size, hsize⟩, rfl, -⟩ := (limitedLayout_eq_ok hchosen).mp hlayout
  have hpayload := choose_size hsize hchosen
  rw [hexact] at hsize
  have hle := compareSizes_le hsize hws
  rw [length_frame, length_frame]
  omega

/-! ## Strings -/

lemma asciiSize_returned (backend : Backend) (value : Str) (mode : AdaptiveMode) :
    (asciiSize backend value mode).Returned := by
  rw [asciiSize]
  split
  · trivial
  · split
    · exact Outcome.bind_returned (Outcome.okOr_returned _ _) fun _ => trivial
    · trivial

lemma limitedStringLayout_returned (backend : Backend) (c : AdaptiveConfig) (value : Str) :
    (limitedStringLayout backend c value).Returned :=
  Outcome.bind_returned
    (Outcome.bind_returned (asciiSize_returned _ _ _) fun _ =>
      Outcome.bind_returned (Outcome.okOr_returned _ _) fun _ => trivial)
    fun _ => Outcome.bind_returned (enforceByteLimit_returned _ _) fun _ => trivial

lemma strings_exact (backend : Backend) (c : AdaptiveConfig) (value : Str) :
    Exact (encodedStringSize backend c value) (encodeString backend c value)
      (encodeStringIntoSlice backend c value) := by
  refine Exact.of_layout (fun layout => layout.2.2)
    (limitedStringLayout_returned backend c value) ?_ ?_ ?_ ?_
  · intro bytes h
    obtain ⟨strategy, size, required, hlayout, -, rfl⟩ := encodeString_eq_ok.mp h
    obtain ⟨-, -, hrequired⟩ := stringLayout_of_ok (limitedStringLayout_eq_ok.mp hlayout).1
    exact ⟨(strategy, size, required), hlayout, hrequired⟩
  · rintro ⟨strategy, size, required⟩ hlayout
    obtain ⟨-, -, hrequired⟩ := stringLayout_of_ok (limitedStringLayout_eq_ok.mp hlayout).1
    exact ⟨stringFrame strategy value.bytes, hrequired.symm,
      fun hsize => encodeString_eq_ok.mpr ⟨strategy, size, required, hlayout, hsize, rfl⟩,
      fun output hroom => encodeStringIntoSlice_of hlayout hroom⟩
  · rintro ⟨strategy, size, required⟩ hlayout output hshort
    rw [encodeStringIntoSlice, hlayout]
    refine (bind_of_ok (call_run _ _)).trans ?_
    dsimp only
    rw [get_bind_run, if_pos hshort, throw_run]
  · intro e hlayout output
    rw [encodeStringIntoSlice, hlayout]
    rfl

end RustBinary.Adaptive
