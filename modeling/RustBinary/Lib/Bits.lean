import RustBinary.Lib.Bytes
import Mathlib.Data.Nat.Bitwise

/-!
# Bit strings and the numbers they spell

Bit strings are lists of booleans, the least significant bit first.  `toBits w` spells a number
below `2 ^ w` in `w` bits and `ofBits` reads it back; a byte string is the bit string `unpack` of
its bytes, and `pack` fills the last byte with zeros.
-/

namespace Lib

/-- The `w` least significant bits of `n`. -/
def toBits : ℕ → ℕ → List Bool
  | 0, _ => []
  | w + 1, n => (n % 2 == 1) :: toBits w (n / 2)

/-- The number that a bit string spells. -/
def ofBits : List Bool → ℕ
  | [] => 0
  | b :: bs => b.toNat + 2 * ofBits bs

@[simp] lemma length_toBits (w n : ℕ) : (toBits w n).length = w := by
  induction w generalizing n with
  | zero => rfl
  | succ w ih => rw [toBits, List.length_cons, ih]

lemma ofBits_lt (bs : List Bool) : ofBits bs < 2 ^ bs.length := by
  induction bs with
  | nil => simp [ofBits]
  | cons b bs ih =>
      have hb := Bool.toNat_lt b
      rw [ofBits, List.length_cons, pow_succ]
      omega

lemma ofBits_toBits_mod (w n : ℕ) : ofBits (toBits w n) = n % 2 ^ w := by
  induction w generalizing n with
  | zero => simp [toBits, ofBits, Nat.mod_one]
  | succ w ih =>
      have hbit : (n % 2 == 1).toNat = n % 2 := by
        rcases Nat.mod_two_eq_zero_or_one n with h | h <;> rw [h] <;> rfl
      rw [toBits, ofBits, ih, hbit, pow_succ, Nat.mul_comm (2 ^ w), Nat.mod_mul]

lemma ofBits_toBits {w n : ℕ} (h : n < 2 ^ w) : ofBits (toBits w n) = n := by
  rw [ofBits_toBits_mod, Nat.mod_eq_of_lt h]

lemma toBits_ofBits (bs : List Bool) : toBits bs.length (ofBits bs) = bs := by
  induction bs with
  | nil => rfl
  | cons b bs ih =>
      have hb := Bool.toNat_lt b
      have hhead : ((b.toNat + 2 * ofBits bs) % 2 == 1) = b := by
        rw [Nat.add_mul_mod_self_left, Nat.mod_eq_of_lt hb]
        cases b <;> rfl
      have htail : (b.toNat + 2 * ofBits bs) / 2 = ofBits bs := by omega
      rw [List.length_cons, ofBits, toBits, hhead, htail, ih]

lemma toBits_inj {w m n : ℕ} (hm : m < 2 ^ w) (hn : n < 2 ^ w) (h : toBits w m = toBits w n) :
    m = n := by
  rw [← ofBits_toBits hm, h, ofBits_toBits hn]

lemma toBits_add (v w n : ℕ) : toBits (v + w) n = toBits v n ++ toBits w (n / 2 ^ v) := by
  induction v generalizing n with
  | zero => simp [toBits]
  | succ v ih =>
      rw [Nat.succ_add, toBits, ih, toBits, List.cons_append, Nat.div_div_eq_div_mul, pow_succ,
        Nat.mul_comm]

/-- Only the low bits of a number are spelled. -/
lemma toBits_mod (w n : ℕ) : toBits w (n % 2 ^ w) = toBits w n := by
  have h := toBits_ofBits (toBits w n)
  rwa [length_toBits, ofBits_toBits_mod] at h

lemma toBits_zero (w : ℕ) : toBits w 0 = List.replicate w false := by
  induction w with
  | zero => rfl
  | succ w ih =>
      rw [toBits, List.replicate_succ, ← ih]
      rfl

lemma ofBits_append (xs ys : List Bool) :
    ofBits (xs ++ ys) = ofBits xs + 2 ^ xs.length * ofBits ys := by
  induction xs with
  | nil => simp [ofBits]
  | cons x xs ih =>
      rw [List.cons_append, ofBits, ofBits, ih, List.length_cons]
      ring

lemma ofBits_replicate_false (n : ℕ) : ofBits (List.replicate n false) = 0 := by
  rw [← toBits_zero, ofBits_toBits_mod, Nat.zero_mod]

lemma getElem?_toBits {w i : ℕ} (h : i < w) (n : ℕ) : (toBits w n)[i]? = some (n.testBit i) := by
  induction w generalizing n i with
  | zero => exact absurd h (Nat.not_lt_zero i)
  | succ w ih =>
      rw [toBits]
      cases i with
      | zero => simp [Nat.testBit_zero, Bool.beq_eq_decide_eq]
      | succ i =>
          rw [List.getElem?_cons_succ, ih (by omega), Nat.testBit_succ]

lemma toBits_ext {w m n : ℕ} (h : ∀ i < w, m.testBit i = n.testBit i) :
    toBits w m = toBits w n := by
  refine List.ext_getElem? fun i => ?_
  by_cases hi : i < w
  · rw [getElem?_toBits hi, getElem?_toBits hi, h i hi]
  · rw [List.getElem?_eq_none (by rw [length_toBits]; omega),
      List.getElem?_eq_none (by rw [length_toBits]; omega)]

/-- Setting a bit of the number sets it in the bit string. -/
lemma toBits_or_pow {w j : ℕ} (n : ℕ) : toBits w (n ||| 2 ^ j) = (toBits w n).set j true := by
  refine List.ext_getElem? fun i => ?_
  rw [List.getElem?_set, length_toBits]
  by_cases hi : i < w
  · rw [getElem?_toBits hi, getElem?_toBits hi, Nat.testBit_or, Nat.testBit_two_pow]
    by_cases hj : j = i
    · rw [if_pos hj, if_pos (by omega), decide_eq_true hj, Bool.or_true]
    · rw [if_neg hj, decide_eq_false hj, Bool.or_false]
  · rw [List.getElem?_eq_none (by rw [length_toBits]; omega),
      List.getElem?_eq_none (by rw [length_toBits]; omega)]
    split
    · rw [if_neg (by omega)]
    · rfl

/-! ## Bytes -/

/-- The bits of a byte string. -/
def unpack (bs : List UInt8) : List Bool := bs.flatMap fun b => toBits 8 b.toNat

@[simp] lemma unpack_nil : unpack [] = [] := rfl

@[simp] lemma unpack_cons (b : UInt8) (bs : List UInt8) :
    unpack (b :: bs) = toBits 8 b.toNat ++ unpack bs := List.flatMap_cons

@[simp] lemma unpack_append (bs cs : List UInt8) : unpack (bs ++ cs) = unpack bs ++ unpack cs :=
  List.flatMap_append

@[simp] lemma length_unpack (bs : List UInt8) : (unpack bs).length = 8 * bs.length := by
  induction bs with
  | nil => rfl
  | cons b bs ih =>
      rw [unpack_cons, List.length_append, length_toBits, ih, List.length_cons]
      ring

/-- A byte string and its bits spell the same number. -/
lemma ofBits_unpack (bs : List UInt8) : ofBits (unpack bs) = leNat bs := by
  induction bs with
  | nil => rfl
  | cons b bs ih =>
      rw [unpack_cons, ofBits_append, ofBits_toBits b.toNat_lt, ih, length_toBits, leNat]
      rfl

lemma unpack_inj {bs cs : List UInt8} (h : unpack bs = unpack cs) : bs = cs := by
  have hlen := congrArg List.length h
  rw [length_unpack, length_unpack] at hlen
  rw [← leBytes_leNat bs, ← leBytes_leNat cs, ← ofBits_unpack, ← ofBits_unpack, h,
    show bs.length = cs.length by omega]

/-- The bytes of a bit string, filled with zeros. -/
def pack (bits : List Bool) : List UInt8 := leBytes ((bits.length + 7) / 8) (ofBits bits)

@[simp] lemma length_pack (bits : List Bool) : (pack bits).length = (bits.length + 7) / 8 :=
  length_leBytes _ _

lemma unpack_pack (bits : List Bool) :
    unpack (pack bits) =
      bits ++ List.replicate (8 * ((bits.length + 7) / 8) - bits.length) false := by
  have hlt := ofBits_lt bits
  have hle : bits.length ≤ 8 * ((bits.length + 7) / 8) := by omega
  have hpow : ofBits bits < 256 ^ ((bits.length + 7) / 8) := by
    rw [show 256 = 2 ^ 8 from rfl, ← pow_mul]
    exact lt_of_lt_of_le hlt (Nat.pow_le_pow_right (by decide) hle)
  have hbits := toBits_ofBits (unpack (pack bits))
  rw [length_unpack, length_pack, ofBits_unpack, pack, leNat_leBytes hpow] at hbits
  rw [pack, ← hbits]
  obtain ⟨k, hk⟩ := Nat.exists_eq_add_of_le hle
  rw [hk, toBits_add, toBits_ofBits, Nat.div_eq_of_lt hlt, toBits_zero, Nat.add_sub_cancel_left]

/-- A byte string that is a bit string and less than a byte of zeros is packed. -/
lemma eq_pack_of_unpack {bs : List UInt8} {bits : List Bool} {n : ℕ} (hn : n < 8)
    (h : unpack bs = bits ++ List.replicate n false) : bs = pack bits := by
  refine unpack_inj (h.trans ?_)
  have hlen := congrArg List.length h
  rw [length_unpack, List.length_append, List.length_replicate] at hlen
  rw [unpack_pack, show 8 * ((bits.length + 7) / 8) - bits.length = n by omega]

lemma unpack_take (bs : List UInt8) (n : ℕ) : unpack (bs.take n) = (unpack bs).take (8 * n) := by
  induction bs generalizing n with
  | nil => simp
  | cons b bs ih =>
      cases n with
      | zero => rfl
      | succ n =>
          rw [List.take_succ_cons, unpack_cons, unpack_cons, ih,
            show 8 * (n + 1) = (toBits 8 b.toNat).length + 8 * n by rw [length_toBits]; ring,
            List.take_length_add_append]

/-- The bits of a byte behind its first `r` bits are zeros when nothing is left after a shift. -/
lemma shiftRight_eq_zero_iff {b : UInt8} {r : ℕ} (hr : r < 8) :
    b >>> UInt8.ofNat r = 0 ↔ (toBits 8 b.toNat).drop r = List.replicate (8 - r) false := by
  have hmod : (UInt8.ofNat r).toNat % 8 = r := by
    rw [UInt8.toNat_ofNat']
    omega
  have hlt : b.toNat / 2 ^ r < 2 ^ (8 - r) := by
    rw [Nat.div_lt_iff_lt_mul (Nat.two_pow_pos r), ← pow_add, Nat.sub_add_cancel hr.le]
    exact b.toNat_lt
  have hdrop : (toBits 8 b.toNat).drop r = toBits (8 - r) (b.toNat / 2 ^ r) := by
    have h := toBits_add r (8 - r) b.toNat
    rw [Nat.add_sub_cancel' hr.le] at h
    rw [h, List.drop_left' (length_toBits _ _)]
  rw [hdrop, ← toBits_zero, ← UInt8.toNat_inj, UInt8.toNat_shiftRight, hmod,
    Nat.shiftRight_eq_div_pow]
  constructor
  · intro h
    rw [h]
    rfl
  · intro h
    exact toBits_inj hlt (Nat.two_pow_pos _) h

/-- As `shiftRight_eq_zero_iff`, for the last byte of a byte string that has its first `p` bits. -/
lemma getLast_shiftRight_eq_zero_iff {bs : List UInt8} {last : UInt8} {p : ℕ} (hp : p % 8 ≠ 0)
    (hlen : bs.length = (p + 7) / 8) (hlast : bs.getLast? = some last) :
    last >>> UInt8.ofNat (p % 8) = 0 ↔
      (unpack bs).drop p = List.replicate (8 * bs.length - p) false := by
  obtain ⟨front, rfl⟩ := List.getLast?_eq_some_iff.mp hlast
  rw [List.length_append, List.length_singleton] at hlen
  have hfront : (unpack front).length = p - p % 8 := by
    rw [length_unpack]
    omega
  have hdrop : (unpack (front ++ [last])).drop p = (toBits 8 last.toNat).drop (p % 8) := by
    rw [unpack_append, unpack_cons, unpack_nil, List.append_nil, List.drop_append, hfront,
      List.drop_eq_nil_of_le (by rw [hfront]; omega), List.nil_append,
      show p - (p - p % 8) = p % 8 by omega]
  rw [hdrop, shiftRight_eq_zero_iff (by omega), List.length_append, List.length_singleton,
    show 8 * (front.length + 1) - p = 8 - p % 8 by omega]

/-- A bit of a byte string. -/
lemma getElem?_unpack (bs : List UInt8) (p : ℕ) :
    (unpack bs)[p]? = bs[p / 8]?.map fun b => b.toNat.testBit (p % 8) := by
  induction bs generalizing p with
  | nil => rfl
  | cons b bs ih =>
      rw [unpack_cons]
      by_cases hp : p < 8
      · rw [List.getElem?_append_left (by rw [length_toBits]; exact hp), getElem?_toBits hp,
          Nat.div_eq_of_lt hp, Nat.mod_eq_of_lt hp]
        rfl
      · obtain ⟨q, rfl⟩ := Nat.exists_eq_add_of_le (Nat.not_lt.mp hp)
        rw [List.getElem?_append_right (by rw [length_toBits]; omega), length_toBits,
          Nat.add_sub_cancel_left, ih, Nat.add_mod_left, Nat.add_div_left q (by decide),
          List.getElem?_cons_succ]

end Lib
