import RustBinary.Lib.Bytes

/-!
# LEB128

The base-128 integers whose continuation bit is set on every byte but the last.
-/

namespace Lib

/-- The bytes of `value`, with as many rounds as are given. -/
def leb128Loop : ℕ → ℕ → List UInt8
  | 0, _ => []
  | n + 1, value =>
      if value < 128 then [UInt8.ofNat value]
      else UInt8.ofNat (value % 128 + 128) :: leb128Loop n (value / 128)

/-- The bytes of `value`, least significant first. -/
def leb128 (value : ℕ) : List UInt8 := leb128Loop (value + 1) value

lemma leb128Loop_eq {m n value : ℕ} (hm : value < m) (hn : value < n) :
    leb128Loop m value = leb128Loop n value := by
  induction m generalizing n value with
  | zero => exact absurd hm (Nat.not_lt_zero _)
  | succ m ih =>
      obtain ⟨n, rfl⟩ : ∃ k, n = k + 1 := ⟨n - 1, by omega⟩
      rw [leb128Loop, leb128Loop]
      split
      · rfl
      · next h => rw [ih (n := n) (by omega) (by omega)]

lemma leb128_of_lt {value : ℕ} (h : value < 128) : leb128 value = [UInt8.ofNat value] := by
  rw [leb128, leb128Loop, if_pos h]

lemma leb128_of_ge {value : ℕ} (h : 128 ≤ value) :
    leb128 value = UInt8.ofNat (value % 128 + 128) :: leb128 (value / 128) := by
  rw [leb128, leb128Loop, if_neg (by omega), leb128,
    leb128Loop_eq (m := value) (n := value / 128 + 1) (by omega) (by omega)]

lemma leb128_ne_nil (value : ℕ) : leb128 value ≠ [] := by
  rcases Nat.lt_or_ge value 128 with h | h
  · rw [leb128_of_lt h]
    simp
  · rw [leb128_of_ge h]
    simp

/-! ## Strings of groups -/

/-- The bytes of an integer: all but the last one carry the continuation bit. -/
def Terminated : List UInt8 → Prop
  | [] => False
  | byte :: bytes => if byte.toNat < 128 then bytes = [] else Terminated bytes

/-- The integer whose groups of seven bits are those of the bytes. -/
def leb128Value : List UInt8 → ℕ
  | [] => 0
  | byte :: bytes => byte.toNat % 128 + 128 * leb128Value bytes

/-- More than one group, the last one without a bit. -/
def Overlong (bytes : List UInt8) : Prop := 1 < bytes.length ∧ bytes.getLast? = some 0

lemma terminated_of_lt {byte : UInt8} (h : byte.toNat < 128) (bytes : List UInt8) :
    Terminated (byte :: bytes) ↔ bytes = [] := by
  rw [Terminated, if_pos h]

lemma terminated_of_ge {byte : UInt8} (h : ¬ byte.toNat < 128) (bytes : List UInt8) :
    Terminated (byte :: bytes) ↔ Terminated bytes := by
  rw [Terminated, if_neg h]

lemma not_terminated_nil : ¬ Terminated [] := id

lemma leb128Value_singleton {byte : UInt8} (h : byte.toNat < 128) :
    leb128Value [byte] = byte.toNat := by
  simp only [leb128Value]
  omega

/-- The bytes of an integer are those of the integer. -/
lemma terminated_leb128 (value : ℕ) :
    Terminated (leb128 value) ∧ leb128Value (leb128 value) = value := by
  induction value using Nat.strongRec with
  | ind value ih =>
      rcases Nat.lt_or_ge value 128 with h | h
      · have hbyte : (UInt8.ofNat value).toNat = value := by simp; omega
        rw [leb128_of_lt h, terminated_of_lt (by omega), leb128Value_singleton (by omega)]
        exact ⟨rfl, hbyte⟩
      · have hbyte : (UInt8.ofNat (value % 128 + 128)).toNat = value % 128 + 128 := by simp; omega
        obtain ⟨hterminated, hvalue⟩ := ih (value / 128) (by omega)
        rw [leb128_of_ge h, terminated_of_ge (by omega), leb128Value, hvalue, hbyte]
        exact ⟨hterminated, by omega⟩

lemma overlong_of_value_eq_zero {bytes : List UInt8} (h : Terminated bytes)
    (hvalue : leb128Value bytes = 0) : bytes.getLast? = some 0 := by
  induction bytes with
  | nil => exact h.elim
  | cons byte bytes ih =>
      rw [leb128Value] at hvalue
      by_cases hlt : byte.toNat < 128
      · rw [(terminated_of_lt hlt bytes).mp h]
        have hbyte : byte = 0 := UInt8.toNat_inj.mp (by rw [UInt8.toNat_zero]; omega)
        rw [hbyte]
        rfl
      · have hrest := (terminated_of_ge hlt bytes).mp h
        have hlast := ih hrest (by omega)
        rw [List.getLast?_cons, hlast]
        rfl

/-- The integer spells its bytes unless these are over-long. -/
lemma leb128_leb128Value_iff {bytes : List UInt8} (h : Terminated bytes) :
    leb128 (leb128Value bytes) = bytes ↔ ¬ Overlong bytes := by
  induction bytes with
  | nil => exact h.elim
  | cons byte bytes ih =>
      by_cases hlt : byte.toNat < 128
      · obtain rfl := (terminated_of_lt hlt bytes).mp h
        rw [leb128Value_singleton hlt, leb128_of_lt hlt, UInt8.ofNat_toNat]
        simp [Overlong]
      · have hrest := (terminated_of_ge hlt bytes).mp h
        have hne : bytes ≠ [] := by
          rintro rfl
          exact hrest
        have hlen : 1 ≤ bytes.length := List.length_pos_iff.mpr hne
        have hoverlong : Overlong (byte :: bytes) ↔ bytes.getLast? = some 0 := by
          rw [Overlong, List.length_cons, List.getLast?_cons_of_ne_nil hne]
          exact and_iff_right (by omega)
        rw [hoverlong, leb128Value]
        have hbyte := byte.toNat_lt
        rcases Nat.eq_zero_or_pos (leb128Value bytes) with hzero | hpos
        · -- the groups of an integer below 128 are one group
          rw [hzero, leb128_of_lt (by omega)]
          refine iff_of_false (fun heq => hne (List.cons.inj heq).2.symm) (not_not.mpr ?_)
          exact overlong_of_value_eq_zero hrest hzero
        · have hhead : UInt8.ofNat ((byte.toNat % 128 + 128 * leb128Value bytes) % 128 + 128) =
              byte := by
            rw [← UInt8.toNat_inj, UInt8.toNat_ofNat']
            omega
          have htail : (byte.toNat % 128 + 128 * leb128Value bytes) / 128 = leb128Value bytes := by
            omega
          have hlast : Overlong bytes ↔ bytes.getLast? = some 0 := by
            refine and_iff_right_of_imp fun hlast => ?_
            by_contra hone
            obtain ⟨b, rfl⟩ := List.length_eq_one_iff.mp (by omega : bytes.length = 1)
            obtain rfl : b = 0 := Option.some.inj hlast
            exact absurd hpos (by decide)
          rw [leb128_of_ge (by omega), hhead, htail, List.cons.injEq, ← hlast, ← ih hrest]
          exact and_iff_right rfl

/-- The last group of an integer below `2 ^ bits` starts below `bits`. -/
lemma length_leb128_lt {value bits : ℕ} (hbits : 0 < bits) (h : value < 2 ^ bits) :
    7 * ((leb128 value).length - 1) < bits := by
  induction value using Nat.strongRec generalizing bits with
  | ind value ih =>
      rcases Nat.lt_or_ge value 128 with hlt | hge
      · rw [leb128_of_lt hlt]
        exact hbits
      · have hmore : 7 < bits := by
          by_contra hle
          have hpow : 2 ^ bits ≤ 2 ^ 7 := Nat.pow_le_pow_right (by decide) (by omega)
          omega
        obtain ⟨rest, rfl⟩ : ∃ k, bits = k + 7 := ⟨bits - 7, by omega⟩
        rw [pow_add] at h
        have hdiv : 7 * ((leb128 (value / 128)).length - 1) < rest :=
          ih (value / 128) (by omega) (by omega) (by omega)
        have hpos : 0 < (leb128 (value / 128)).length :=
          List.length_pos_iff.mpr (leb128_ne_nil _)
        rw [leb128_of_ge hge, List.length_cons]
        omega

end Lib
