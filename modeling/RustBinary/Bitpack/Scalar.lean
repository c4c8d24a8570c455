import RustBinary.Bitpack.Derive
import Mathlib.Tactic.Positivity
import Mathlib.Tactic.Zify

/-!
# Scalars in a declared width

A value fits into a width when it is one of the `2 ^ width` values that the width has room for;
then its word comes back as the value, and a word comes back from no other value.
-/

namespace RustBinary.Bitpack

open Lib Lib.Act

lemma IntWidth.bits_le (w : IntWidth) : 8 ≤ w.bits ∧ w.bits ≤ 128 := by
  cases w <;> decide

/-- The bit below `2 ^ width` is set in the upper half. -/
lemma and_two_pow_ne_zero {n k : ℕ} (h : n < 2 ^ (k + 1)) : n &&& 2 ^ k ≠ 0 ↔ 2 ^ k ≤ n := by
  rw [Nat.and_two_pow, Nat.testBit_eq_decide_div_mod_eq]
  have hdiv : n / 2 ^ k < 2 := by
    rw [Nat.div_lt_iff_lt_mul (Nat.two_pow_pos k), Nat.mul_comm, ← pow_succ]
    exact h
  by_cases hle : 2 ^ k ≤ n
  · have hone : n / 2 ^ k = 1 := by
      have := (Nat.one_le_div_iff (Nat.two_pow_pos k)).mpr hle
      omega
    simp [hone, hle]
  · rw [Nat.div_eq_of_lt (by omega)]
    simp [hle]

/-- Ones above a word. -/
lemma toNat_or_allOnes {n width : ℕ} (hwidth : width ≤ 128) (h : n < 2 ^ width) :
    (BitVec.ofNat 128 n ||| BitVec.allOnes 128 <<< width).toNat = n + (2 ^ 128 - 2 ^ width) := by
  have hle : (2 : ℕ) ^ width ≤ 2 ^ 128 := Nat.pow_le_pow_right (by decide) hwidth
  have hpos := Nat.two_pow_pos width
  have hones : (2 ^ 128 - 1) * 2 ^ width % 2 ^ 128 = 2 ^ 128 - 2 ^ width := by
    have hsplit : (2 ^ 128 - 1) * 2 ^ width =
        2 ^ 128 - 2 ^ width + 2 ^ 128 * (2 ^ width - 1) := by
      rw [Nat.sub_mul, one_mul, Nat.mul_sub, mul_one]
      omega
    rw [hsplit, Nat.add_mul_mod_self_left, Nat.mod_eq_of_lt (by omega)]
  have hfactor : 2 ^ 128 - 2 ^ width = 2 ^ width * (2 ^ (128 - width) - 1) := by
    rw [Nat.mul_sub, mul_one, ← pow_add, Nat.add_sub_cancel' hwidth]
  rw [BitVec.toNat_or, BitVec.toNat_ofNat, BitVec.toNat_shiftLeft, BitVec.toNat_allOnes,
    Nat.shiftLeft_eq, Nat.mod_eq_of_lt (lt_of_lt_of_le h hle), hones, hfactor, Nat.lor_comm,
    ← Nat.two_pow_add_eq_or_of_lt h, Nat.add_comm]

namespace Scalar

/-- The sign extension of a word of `width` bits. -/
lemma signExtend_eq {n width : ℕ} (hpos : 1 ≤ width) (hwidth : width ≤ 128) (h : n < 2 ^ width) :
    signExtend n width = if n < 2 ^ (width - 1) then (n : ℤ) else n - 2 ^ width := by
  obtain ⟨k, rfl⟩ := Nat.exists_eq_add_of_le' hpos
  rw [Nat.add_sub_cancel]
  have hlt : n < 2 ^ 128 := lt_of_lt_of_le h (Nat.pow_le_pow_right (by decide) hwidth)
  have hnat : (BitVec.ofNat 128 n).toNat = n := by
    rw [BitVec.toNat_ofNat, Nat.mod_eq_of_lt hlt]
  rw [signExtend]
  split
  · next heq =>
      obtain rfl : k = 127 := by omega
      rw [BitVec.toInt_eq_toNat_cond, hnat]
      by_cases hhalf : n < 2 ^ 127
      · rw [if_pos hhalf, if_pos (by omega)]
      · rw [if_neg hhalf, if_neg (by omega)]
        norm_num
  · next hne =>
      have hle : (2 : ℕ) ^ (k + 1) ≤ 2 ^ 127 := Nat.pow_le_pow_right (by decide) (by omega)
      rw [Nat.add_sub_cancel]
      by_cases hhalf : n < 2 ^ k
      · rw [if_neg (fun hand => absurd ((and_two_pow_ne_zero h).mp hand) (by omega)), if_pos hhalf,
          BitVec.toInt_eq_toNat_of_lt (by rw [hnat]; omega), hnat]
      · rw [if_pos ((and_two_pow_ne_zero h).mpr (by omega)), if_neg hhalf,
          BitVec.toInt_eq_toNat_cond, toNat_or_allOnes hwidth h, if_neg (by omega)]
        have hcast : ((2 ^ (k + 1) : ℕ) : ℤ) = 2 ^ (k + 1) := by push_cast; rfl
        omega

/-- The word of a value. -/
def word : (s : Scalar) → s.Value → ℕ → ℕ
  | bool, value, _ => Bool.toNat value
  | unsigned _, value, _ => BitVec.toNat value
  | signed _, value, width => (BitVec.toInt value % 2 ^ width).toNat

/-- The value fits into `width` bits. -/
def Fits : (s : Scalar) → s.Value → ℕ → Prop
  | bool, _, width => width = 1
  | unsigned w, value, width => 1 ≤ width ∧ width ≤ w.bits ∧ BitVec.toNat value < 2 ^ width
  | signed w, value, width =>
      1 ≤ width ∧ width ≤ w.bits ∧
        -2 ^ (width - 1) ≤ BitVec.toInt value ∧ BitVec.toInt value < 2 ^ (width - 1)

variable {s : Scalar} {value : s.Value} {width : ℕ}

lemma Fits.width_le (h : s.Fits value width) : width ≤ 8 * s.bytes ∧ width ≤ 128 := by
  cases s with
  | bool => exact ⟨by rw [show width = 1 from h, bytes]; decide, by rw [show width = 1 from h]; decide⟩
  | unsigned w => exact ⟨h.2.1, h.2.1.trans w.bits_le.2⟩
  | signed w => exact ⟨h.2.1, h.2.1.trans w.bits_le.2⟩

/-- A value that fits is encoded as its word. -/
lemma encodeBits_of_fits (h : s.Fits value width) :
    s.encodeBits value width = .ok (s.word value width) ∧ s.word value width < 2 ^ width := by
  cases s with
  | bool =>
      obtain rfl : width = 1 := h
      exact ⟨rfl, Bool.toNat_lt _⟩
  | unsigned w =>
      obtain ⟨hpos, hle, hlt⟩ := h
      refine ⟨?_, hlt⟩
      rw [encodeBits, if_neg (by omega), if_neg (by omega)]
      rfl
  | signed w =>
      obtain ⟨hpos, hle, hmin, hmax⟩ := h
      have hbits := w.bits_le.2
      have hmask : (if width = 128 then 2 ^ 128 - 1 else 2 ^ width - 1) = 2 ^ width - 1 := by
        split
        · next heq => rw [heq]
        · rfl
      have hdvd : ((2 : ℤ) ^ width) ∣ 2 ^ 128 := pow_dvd_pow 2 (by omega)
      refine ⟨?_, ?_⟩
      · rw [encodeBits, if_neg (by omega)]
        dsimp only
        rw [if_neg (by omega), hmask, Nat.and_two_pow_sub_one_eq_mod, BitVec.toNat_ofInt, word]
        congr 1
        zify
        rw [Int.toNat_of_nonneg (Int.emod_nonneg _ (by positivity)),
          Int.toNat_of_nonneg (Int.emod_nonneg _ (by positivity))]
        push_cast
        exact Int.emod_emod_of_dvd _ hdvd
      · have := Int.emod_lt_of_pos (BitVec.toInt value) (show (0 : ℤ) < 2 ^ width by positivity)
        rw [word]
        zify
        rw [Int.toNat_of_nonneg (Int.emod_nonneg _ (by positivity))]
        exact_mod_cast this

/-- The word of a signed value is one of its two residues. -/
lemma word_signed {w : IntWidth} {value : BitVec w.bits} {width : ℕ} (hpos : 1 ≤ width)
    (hmin : -2 ^ (width - 1) ≤ value.toInt) (hmax : value.toInt < 2 ^ (width - 1)) :
    ((word (signed w) value width : ℕ) : ℤ) =
      if 0 ≤ value.toInt then value.toInt else value.toInt + 2 ^ width := by
  obtain ⟨k, rfl⟩ := Nat.exists_eq_add_of_le' hpos
  rw [Nat.add_sub_cancel] at hmin hmax
  have hpow : (2 : ℤ) ^ (k + 1) = 2 * 2 ^ k := by rw [pow_succ, mul_comm]
  show ((value.toInt % 2 ^ (k + 1)).toNat : ℤ) = _
  rw [Int.toNat_of_nonneg (Int.emod_nonneg _ (by positivity)), hpow]
  split
  · rw [Int.emod_eq_of_lt (by assumption) (by omega)]
  · rw [← Int.add_emod_right, Int.emod_eq_of_lt (by omega) (by omega)]

/-- A word is decoded as the value whose word it is. -/
lemma decodeBits_eq_ok {n : ℕ} (hn : n < 2 ^ width) :
    s.decodeBits n width = .ok value ↔ s.Fits value width ∧ n = s.word value width := by
  cases s with
  | bool =>
      rw [decodeBits]
      constructor
      · intro h
        split at h
        · cases h
        · next hok =>
            have hvalue := Outcome.ok.inj h
            obtain rfl : width = 1 := by omega
            refine ⟨rfl, ?_⟩
            rw [← hvalue]
            obtain rfl | rfl : n = 0 ∨ n = 1 := by omega
            · rfl
            · rfl
      · rintro ⟨hwidth, rfl⟩
        obtain rfl : width = 1 := hwidth
        cases value with
        | false => rfl
        | true => rfl
  | unsigned w =>
      have hvalue := BitVec.isLt value
      rw [decodeBits]
      constructor
      · intro h
        split at h
        · cases h
        · next hok =>
            have hnat : BitVec.toNat value = n := by
              rw [← Outcome.ok.inj h, BitVec.toNat_ofNat, Nat.mod_eq_of_lt (by omega)]
            exact ⟨⟨by omega, by omega, hnat ▸ hn⟩, hnat.symm⟩
      · rintro ⟨⟨hpos, hle, -⟩, rfl⟩
        rw [if_neg (show ¬ _ by rw [word]; omega)]
        have hword : ∀ v : BitVec w.bits, BitVec.ofNat w.bits v.toNat = v := by
          intro v
          rw [BitVec.ofNat_toNat, BitVec.setWidth_eq]
        exact congrArg Outcome.ok (hword value)
  | signed w =>
      have hbits := w.bits_le
      rw [decodeBits]
      by_cases hwidth : width = 0 ∨ w.bits < width
      · rw [if_pos hwidth]
        constructor
        · intro h
          cases h
        · rintro ⟨⟨hpos, hle, -⟩, -⟩
          omega
      have hpos : 1 ≤ width := by omega
      have hsign := signExtend_eq hpos (by omega) hn
      -- the sign extension is in the range of the width, and so in that of the type
      have hrange : -2 ^ (width - 1) ≤ signExtend n width ∧
          signExtend n width < 2 ^ (width - 1) := by
        obtain ⟨k, rfl⟩ := Nat.exists_eq_add_of_le' hpos
        rw [Nat.add_sub_cancel] at hsign ⊢
        rw [hsign]
        have hpow : (2 : ℤ) ^ (k + 1) = 2 * 2 ^ k := by rw [pow_succ, mul_comm]
        have hn : (n : ℤ) < 2 ^ (k + 1) := by exact_mod_cast hn
        have hhalf : (n < 2 ^ k) ↔ (n : ℤ) < 2 ^ k := by exact_mod_cast Iff.rfl
        split <;> omega
      have hgrow : (2 : ℤ) ^ (width - 1) ≤ 2 ^ (w.bits - 1) :=
        pow_le_pow_right₀ (by decide) (by omega)
      have hint : (BitVec.ofInt w.bits (signExtend n width)).toInt = signExtend n width := by
        have hpow : (2 : ℤ) ^ w.bits = 2 * 2 ^ (w.bits - 1) := by
          rw [← pow_succ', Nat.sub_add_cancel (by omega)]
        rw [BitVec.toInt_ofInt]
        refine Int.bmod_eq_of_le ?_ ?_
        · push_cast
          omega
        · push_cast
          omega
      rw [if_neg hwidth]
      dsimp only
      rw [if_neg (by omega)]
      constructor
      · intro h
        obtain rfl := Outcome.ok.inj h
        have hfits : Fits (signed w) (BitVec.ofInt w.bits (signExtend n width)) width := by
          refine ⟨hpos, by omega, ?_, ?_⟩
          · rw [hint]
            exact hrange.1
          · rw [hint]
            exact hrange.2
        refine ⟨hfits, ?_⟩
        have hword := word_signed hpos hfits.2.2.1 hfits.2.2.2
        rw [hint] at hword
        have hhalf : (n < 2 ^ (width - 1)) ↔ (n : ℤ) < 2 ^ (width - 1) := by
          exact_mod_cast Iff.rfl
        have hn : (n : ℤ) < 2 ^ width := by exact_mod_cast hn
        zify
        refine Eq.trans ?_ hword.symm
        rw [hsign]
        split
        · next hlt => rw [if_pos (by omega)]
        · next hge => rw [if_neg (by omega), sub_add_cancel]
      · rintro ⟨⟨-, -, hmin, hmax⟩, rfl⟩
        have hword := word_signed hpos hmin hmax
        refine congrArg Outcome.ok (BitVec.eq_of_toInt_eq ?_)
        rw [hint, hsign]
        obtain ⟨k, rfl⟩ := Nat.exists_eq_add_of_le' hpos
        rw [Nat.add_sub_cancel] at hmin hmax ⊢
        have hpow : (2 : ℤ) ^ (k + 1) = 2 * 2 ^ k := by rw [pow_succ, mul_comm]
        have hhalf : (word (signed w) value (k + 1) < 2 ^ k) ↔
            ((word (signed w) value (k + 1) : ℕ) : ℤ) < 2 ^ k := by
          exact_mod_cast Iff.rfl
        split at hword <;> split <;> omega

end Scalar

end RustBinary.Bitpack
