import RustBinary.Core.Canonical
import RustBinary.Delta.Plan

/-!
# Integers against a base

An integer crosses the wire as the ZigZag word of its difference to a base, in groups of seven
bits.  The integer comes back; but a last group without a bit is read like no group at all, so
that the bytes that are accepted are those of the integer only if they do not end in one.
-/

namespace RustBinary.Delta

open Lib Lib.Outcome DeltaCursor

/-- `DeltaConfig::encode_delta`. -/
def encodeDelta (base value : ℤ) : Outcome Error (List UInt8) := do
  let delta ← okOr (checkedSubI128 value base) (.delta "delta overflows i128")
  .ok (leb128 (zigzagEncode delta))

namespace DeltaCursor

def new (input : List UInt8) : DeltaCursor := ⟨input, 0⟩

def zigzag (c : DeltaCursor) : Outcome Error (ℤ × DeltaCursor) := do
  let (encoded, c) ← c.varint
  .ok (zigzagDecode encoded, c)

end DeltaCursor

/-- `DeltaConfig::decode_delta`. -/
def decodeDelta (base : ℤ) (input : List UInt8) : Outcome Error ℤ := do
  let (delta, c) ← (DeltaCursor.new input).zigzag
  c.finish
  okOr (checkedAddI128 base delta) (.delta "reconstructed value overflows i128")

/-- The bytes are those of a 128-bit word, and the difference that it stands for leads from the
base to an `i128`. -/
structure Readable (base : ℤ) (input : List UInt8) : Prop where
  terminated : Terminated input
  length_le : input.length ≤ 19
  value_lt : leb128Value input < 2 ^ 128
  fits : FitsI128 (base + zigzagDecode (leb128Value input))

lemma encodeDelta_eq_ok {base value : ℤ} {bytes : List UInt8} :
    encodeDelta base value = ok bytes ↔
      FitsI128 (value - base) ∧ bytes = leb128 (zigzagEncode (value - base)) := by
  rw [encodeDelta, checkedSubI128]
  by_cases hfits : FitsI128 (value - base)
  · rw [if_pos hfits, okOr_some, ok_bind, Outcome.ok.injEq]
    exact ⟨fun h => ⟨hfits, h.symm⟩, fun h => h.2.symm⟩
  · rw [if_neg hfits, okOr_none, err_bind]
    exact iff_of_false (fun h => by cases h) fun h => hfits h.1

lemma finish_eq_ok (pre post : List UInt8) : (here pre post).finish = ok () ↔ post = [] := by
  rw [finish, here]
  cases post <;> simp

/-- What `decode_delta` accepts. -/
lemma decodeDelta_eq_ok {base value : ℤ} {input : List UInt8} :
    decodeDelta base input = ok value ↔
      Readable base input ∧ value = base + zigzagDecode (leb128Value input) := by
  have hnew : DeltaCursor.new input = here [] input := rfl
  rw [decodeDelta, hnew, zigzag]
  simp only [bind_eq_ok, okOr_eq_ok, checkedAddI128, Option.ite_none_right_eq_some,
    Option.some.injEq, Prod.exists, Outcome.ok.injEq, Prod.mk.injEq]
  constructor
  · rintro ⟨delta, c, ⟨encoded, c', hvarint, rfl, rfl⟩, ⟨⟩, hfinish, hfits, rfl⟩
    obtain ⟨bs, post, rfl, hterminated, hlen, hlt, rfl, rfl⟩ := (varint_eq_ok [] input).mp hvarint
    obtain rfl := (finish_eq_ok _ _).mp hfinish
    rw [List.append_nil]
    exact ⟨⟨hterminated, hlen, hlt, hfits⟩, rfl⟩
  · rintro ⟨⟨hterminated, hlen, hlt, hfits⟩, rfl⟩
    have hvarint : (here [] input).varint = ok (leb128Value input, here ([] ++ input) []) :=
      (varint_eq_ok [] input).mpr
        ⟨input, [], (List.append_nil _).symm, hterminated, hlen, hlt, rfl, rfl⟩
    exact ⟨_, _, ⟨_, _, hvarint, rfl, rfl⟩, (), (finish_eq_ok _ _).mpr rfl, hfits, rfl⟩

/-- An integer comes back, when the difference is one. -/
lemma decodeDelta_encodeDelta {base value : ℤ} (hvalue : FitsI128 value)
    (hdelta : FitsI128 (value - base)) :
    ∃ bytes, encodeDelta base value = ok bytes ∧ decodeDelta base bytes = ok value := by
  refine ⟨_, encodeDelta_eq_ok.mpr ⟨hdelta, rfl⟩, ?_⟩
  obtain ⟨hlt, hback⟩ := zigzagDecode_zigzagEncode hdelta.1 hdelta.2
  obtain ⟨hterminated, hword⟩ := terminated_leb128 (zigzagEncode (value - base))
  have hlen := length_leb128_lt (by decide) hlt
  have hsum : base + zigzagDecode (leb128Value (leb128 (zigzagEncode (value - base)))) = value := by
    rw [hword, hback]
    ring
  refine decodeDelta_eq_ok.mpr ⟨⟨hterminated, by omega, by rw [hword]; exact hlt, ?_⟩, hsum.symm⟩
  rw [hsum]
  exact hvalue

/-- Bytes that are accepted are those of the integer unless they are over-long. -/
lemma encodeDelta_decodeDelta_iff {base : ℤ} {input : List UInt8} (h : Readable base input) :
    encodeDelta base (base + zigzagDecode (leb128Value input)) = ok input ↔ ¬ Overlong input := by
  obtain ⟨hle, hlt, hword⟩ := zigzagEncode_zigzagDecode h.value_lt
  have hdelta : base + zigzagDecode (leb128Value input) - base =
      zigzagDecode (leb128Value input) := by ring
  rw [encodeDelta_eq_ok, hdelta, hword, and_iff_right ⟨hle, hlt⟩, eq_comm]
  exact leb128_leb128Value_iff h.terminated

/-- Integers and their bytes: an integer whose difference to the base is an `i128` comes back, and
bytes that are accepted are the bytes of what they are read as exactly when they are not an
over-long integer. -/
theorem deltas_canonical_iff (base : ℤ) :
    (∀ value, FitsI128 value → FitsI128 (value - base) →
      ∃ bytes, encodeDelta base value = ok bytes ∧ decodeDelta base bytes = ok value) ∧
    ∀ input : List UInt8,
      (∀ value, decodeDelta base input = ok value → encodeDelta base value = ok input) ↔
        ¬ (Overlong input ∧ Readable base input) := by
  refine ⟨fun value hvalue hdelta => decodeDelta_encodeDelta hvalue hdelta, fun input => ?_⟩
  constructor
  · rintro h ⟨hoverlong, hreadable⟩
    have hcanonical := h _ (decodeDelta_eq_ok.mpr ⟨hreadable, rfl⟩)
    exact (encodeDelta_decodeDelta_iff hreadable).mp hcanonical hoverlong
  · intro h value hdecode
    obtain ⟨hreadable, rfl⟩ := decodeDelta_eq_ok.mp hdecode
    exact (encodeDelta_decodeDelta_iff hreadable).mpr fun hoverlong => h ⟨hoverlong, hreadable⟩

/-- Two groups without a bit are read as the base, which is one. -/
theorem deltas_not_canonical : ¬ ((∀ base value, FitsI128 value → FitsI128 (value - base) →
      ∃ bytes, encodeDelta base value = ok bytes ∧ decodeDelta base bytes = ok value) ∧
    ∀ (base : ℤ) (input : List UInt8) (value : ℤ), decodeDelta base input = ok value →
      encodeDelta base value = ok input) := by
  rintro ⟨-, h⟩
  have hcanonical := h 5 [0x80, 0x00] 5 (by decide)
  revert hcanonical
  decide

end RustBinary.Delta
