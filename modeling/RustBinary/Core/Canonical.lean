import RustBinary.Lib.Bytes
import RustBinary.Core.Config
import RustBinary.Core.Nextjson

/-!
# Canonical marker-varints and ZigZag

The single implementation of the canonical little-endian integers that the encoders and
the decoders share.  A value up to 250 is its own marker byte; a larger one has a marker
and the narrowest payload that holds it.
-/

namespace RustBinary

open Lib

/-- `encode_varint_le`. -/
def encodeVarintLe (value : ℕ) : List UInt8 :=
  if value ≤ 250 then [UInt8.ofNat value]
  else if value ≤ 0xffff then markerU16 :: leBytes 2 value
  else if value ≤ 0xffffffff then markerU32 :: leBytes 4 value
  else if value ≤ 0xffffffffffffffff then markerU64 :: leBytes 8 value
  else markerU128 :: leBytes 16 value

/-- `read_le16` and its siblings: the first `width` bytes, if there are as many. -/
def readLe (width : ℕ) (bytes : List UInt8) : Option ℕ :=
  if bytes.length < width then none else some (leNat (bytes.take width))

/-- A value that needs the payload it is in. -/
def atLeast (minimum value : ℕ) : Option ℕ := if value < minimum then none else some value

/-- `decode_varint_le`. -/
def decodeVarintLe (marker : UInt8) (payload : List UInt8) : Option ℕ :=
  if marker.toNat ≤ 250 then some marker.toNat
  else if marker = markerU16 then (readLe 2 payload).bind (atLeast 251)
  else if marker = markerU32 then (readLe 4 payload).bind (atLeast (2 ^ 16))
  else if marker = markerU64 then (readLe 8 payload).bind (atLeast (2 ^ 32))
  else if marker = markerU128 then (readLe 16 payload).bind (atLeast (2 ^ 64))
  else none

/-- The markers of a payload, with its width and the least value that needs it. -/
def wideForms : List (UInt8 × ℕ × ℕ) :=
  [(markerU16, 2, 251), (markerU32, 4, 2 ^ 16), (markerU64, 8, 2 ^ 32), (markerU128, 16, 2 ^ 64)]

/-- A marker stands for itself, announces a payload, or is not one. -/
lemma marker_cases (marker : UInt8) :
    marker.toNat ≤ 250 ∨ (∃ width minimum, (marker, width, minimum) ∈ wideForms) ∨ marker = 255 := by
  rcases Nat.lt_or_ge 250 marker.toNat with h | h
  · have hlt := marker.toNat_lt
    obtain h | h | h | h | h : marker.toNat = 251 ∨ marker.toNat = 252 ∨ marker.toNat = 253 ∨
        marker.toNat = 254 ∨ marker.toNat = 255 := by omega
    · obtain rfl : marker = 251 := UInt8.toNat_inj.mp h
      exact .inr (.inl ⟨2, 251, by decide⟩)
    · obtain rfl : marker = 252 := UInt8.toNat_inj.mp h
      exact .inr (.inl ⟨4, 2 ^ 16, by decide⟩)
    · obtain rfl : marker = 253 := UInt8.toNat_inj.mp h
      exact .inr (.inl ⟨8, 2 ^ 32, by decide⟩)
    · obtain rfl : marker = 254 := UInt8.toNat_inj.mp h
      exact .inr (.inl ⟨16, 2 ^ 64, by decide⟩)
    · exact .inr (.inr (UInt8.toNat_inj.mp h))
  · exact .inl h

lemma lt_of_mem_wideForms {marker : UInt8} {width minimum : ℕ}
    (h : (marker, width, minimum) ∈ wideForms) : 250 < marker.toNat := by
  simp only [wideForms, List.mem_cons, Prod.mk.injEq, List.not_mem_nil, or_false] at h
  rcases h with ⟨rfl, -, -⟩ | ⟨rfl, -, -⟩ | ⟨rfl, -, -⟩ | ⟨rfl, -, -⟩ <;> decide

/-- A payload of the width of its marker holds what it spells, if that needs the payload. -/
lemma decodeVarintLe_wide {marker : UInt8} {width minimum : ℕ} {payload : List UInt8}
    (h : (marker, width, minimum) ∈ wideForms) (hlen : payload.length = width) :
    decodeVarintLe marker payload = atLeast minimum (leNat payload) := by
  have hread : readLe width payload = some (leNat payload) := by
    rw [readLe, if_neg (by omega), ← hlen, List.take_length]
  have hlt := lt_of_mem_wideForms h
  simp only [wideForms, List.mem_cons, Prod.mk.injEq, List.not_mem_nil, or_false] at h
  rw [decodeVarintLe, if_neg (by omega)]
  rcases h with ⟨rfl, rfl, rfl⟩ | ⟨rfl, rfl, rfl⟩ | ⟨rfl, rfl, rfl⟩ | ⟨rfl, rfl, rfl⟩
  · rw [if_pos rfl, hread, Option.bind_some]
  · rw [if_neg (by decide), if_pos rfl, hread, Option.bind_some]
  · rw [if_neg (by decide), if_neg (by decide), if_pos rfl, hread, Option.bind_some]
  · rw [if_neg (by decide), if_neg (by decide), if_neg (by decide), if_pos rfl, hread,
      Option.bind_some]

/-- An `i128`. -/
def FitsI128 (value : ℤ) : Prop := -2 ^ 127 ≤ value ∧ value < 2 ^ 127

instance (value : ℤ) : Decidable (FitsI128 value) := inferInstanceAs (Decidable (_ ∧ _))

/-- `checked_add` on `i128`. -/
def checkedAddI128 (left right : ℤ) : Option ℤ :=
  if FitsI128 (left + right) then some (left + right) else none

/-- `checked_sub` on `i128`. -/
def checkedSubI128 (left right : ℤ) : Option ℤ :=
  if FitsI128 (left - right) then some (left - right) else none

/-- `zigzag_encode`, on 128-bit words. -/
def zigzagEncode (value : ℤ) : ℕ :=
  (BitVec.ofInt 128 value <<< 1 ^^^ (BitVec.ofInt 128 value).sshiftRight 127).toNat

/-- `zigzag_decode`, on 128-bit words. -/
def zigzagDecode (encoded : ℕ) : ℤ :=
  (BitVec.ofNat 128 (encoded / 2) ^^^ -BitVec.ofNat 128 (encoded % 2)).toInt

example : zigzagDecode 0 = 0 ∧ zigzagDecode 1 = -1 ∧ zigzagDecode 2 = 1 ∧
    zigzagDecode (2 ^ 128 - 1) = -2 ^ 127 := by
  decide

/-- The sign of a word, shifted down arithmetically, fills the word. -/
lemma sshiftRight_sign {w : ℕ} (x : BitVec (w + 1)) :
    x.sshiftRight w = if x.msb then BitVec.allOnes (w + 1) else 0#(w + 1) := by
  have hshift {y : BitVec (w + 1)} (hy : y.msb = false) : y >>> w = 0#(w + 1) := by
    apply BitVec.eq_of_toNat_eq
    rw [BitVec.msb_eq_false_iff_two_mul_lt, pow_succ] at hy
    rw [BitVec.toNat_ushiftRight, Nat.shiftRight_eq_div_pow, BitVec.toNat_ofNat, Nat.zero_mod,
      Nat.div_eq_of_lt (by omega)]
  cases hx : x.msb with
  | false => rw [BitVec.sshiftRight_eq_of_msb_false hx, hshift hx, if_neg (by simp)]
  | true =>
      rw [BitVec.sshiftRight_eq_of_msb_true hx, hshift (by simp [hx]), if_pos rfl]
      simp

/-- The ZigZag of a word in two's complement. -/
lemma zigzag_toNat {w : ℕ} (x : BitVec (w + 1)) :
    ((x <<< 1 ^^^ x.sshiftRight w).toNat : ℤ) =
      if 0 ≤ x.toInt then 2 * x.toInt else -2 * x.toInt - 1 := by
  have hlt := x.isLt
  have hshift : (x <<< 1).toNat = 2 * x.toNat % 2 ^ (w + 1) := by
    rw [BitVec.toNat_shiftLeft, Nat.shiftLeft_eq, pow_one, Nat.mul_comm]
  have hint := BitVec.toInt_eq_msb_cond x
  rw [sshiftRight_sign]
  cases hx : x.msb with
  | false =>
      rw [BitVec.msb_eq_false_iff_two_mul_lt] at hx
      rw [if_neg Bool.false_ne_true, BitVec.xor_zero, hshift, Nat.mod_eq_of_lt hx]
      rw [BitVec.toInt_eq_toNat_of_lt hx] at hint ⊢
      rw [if_pos (by omega)]
      push_cast
      rfl
  | true =>
      rw [if_pos hx] at hint
      rw [BitVec.msb_eq_true_iff_two_mul_ge] at hx
      have hmod : 2 * x.toNat % 2 ^ (w + 1) = 2 * x.toNat - 2 ^ (w + 1) := by
        rw [Nat.mod_eq_sub_mod hx, Nat.mod_eq_of_lt (by omega)]
      rw [if_pos rfl, BitVec.xor_allOnes, BitVec.toNat_not, hshift, hmod, hint]
      -- the size of the word is the same number on both sides
      generalize 2 ^ (w + 1) = size at *
      rw [if_neg (by omega)]
      omega

lemma zigzagDecode_eq {n : ℕ} (h : n < 2 ^ 128) :
    zigzagDecode n = if n % 2 = 0 then ((n / 2 : ℕ) : ℤ) else -((n / 2 : ℕ) : ℤ) - 1 := by
  have hnat : (BitVec.ofNat 128 (n / 2)).toNat = n / 2 := by
    rw [BitVec.toNat_ofNat]
    omega
  rw [zigzagDecode]
  rcases Nat.mod_two_eq_zero_or_one n with hn | hn
  · rw [if_pos hn, hn, show -BitVec.ofNat 128 0 = 0#128 by decide, BitVec.xor_zero,
      BitVec.toInt_eq_toNat_of_lt (by omega), hnat]
  · rw [if_neg (by omega), hn, show -BitVec.ofNat 128 1 = BitVec.allOnes 128 by decide,
      BitVec.xor_allOnes, BitVec.toInt_eq_toNat_cond, BitVec.toNat_not, hnat]
    split <;> omega

lemma zigzagEncode_eq {z : ℤ} (h : -2 ^ 127 ≤ z) (h' : z < 2 ^ 127) :
    (zigzagEncode z : ℤ) = if 0 ≤ z then 2 * z else -2 * z - 1 := by
  have hz : (BitVec.ofInt 128 z).toInt = z := by
    rw [BitVec.toInt_ofInt]
    exact Int.bmod_eq_of_le (by omega) (by omega)
  rw [zigzagEncode, zigzag_toNat (w := 127), hz]

/-- A 128-bit integer comes back from its ZigZag word. -/
lemma zigzagDecode_zigzagEncode {z : ℤ} (h : -2 ^ 127 ≤ z) (h' : z < 2 ^ 127) :
    zigzagEncode z < 2 ^ 128 ∧ zigzagDecode (zigzagEncode z) = z := by
  have heq := zigzagEncode_eq h h'
  have hlt : zigzagEncode z < 2 ^ 128 := by
    split at heq <;> omega
  refine ⟨hlt, ?_⟩
  rw [zigzagDecode_eq hlt]
  split at heq <;> split <;> omega

/-- Every 128-bit word is the ZigZag word of a 128-bit integer. -/
lemma zigzagEncode_zigzagDecode {n : ℕ} (h : n < 2 ^ 128) :
    -2 ^ 127 ≤ zigzagDecode n ∧ zigzagDecode n < 2 ^ 127 ∧ zigzagEncode (zigzagDecode n) = n := by
  have hvalue := zigzagDecode_eq h
  have hle : -2 ^ 127 ≤ zigzagDecode n := by
    split at hvalue <;> omega
  have hlt : zigzagDecode n < 2 ^ 127 := by
    split at hvalue <;> omega
  have hword := zigzagEncode_eq hle hlt
  refine ⟨hle, hlt, ?_⟩
  split at hvalue <;> split at hword <;> omega

end RustBinary
