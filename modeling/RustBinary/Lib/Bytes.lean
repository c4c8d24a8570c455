import Mathlib.Algebra.Order.Ring.Nat
import Mathlib.Tactic.Common
import Mathlib.Tactic.Ring

/-!
# Byte strings and the numbers they spell

Byte strings are lists of bytes.  `leNat` and `beNat` read one as a number, least and most
significant byte first; `leBytes w` and `beBytes w` spell a number below `256 ^ w` in `w`
bytes, and the two directions are inverse to each other.  `slice` is the bounds-checked
subslice.
-/

namespace Lib

/-- The number that `bs` spells, least significant byte first. -/
def leNat : List UInt8 → ℕ
  | [] => 0
  | b :: bs => b.toNat + 256 * leNat bs

/-- The number that `bs` spells, most significant byte first. -/
def beNat (bs : List UInt8) : ℕ := leNat bs.reverse

/-- The `w` least significant bytes of `n`, least significant first. -/
def leBytes : ℕ → ℕ → List UInt8
  | 0, _ => []
  | w + 1, n => UInt8.ofNat n :: leBytes w (n / 256)

/-- The `w` least significant bytes of `n`, most significant first. -/
def beBytes (w n : ℕ) : List UInt8 := (leBytes w n).reverse

@[simp] lemma length_leBytes (w n : ℕ) : (leBytes w n).length = w := by
  induction w generalizing n with
  | zero => rfl
  | succ w ih => simp [leBytes, ih]

@[simp] lemma length_beBytes (w n : ℕ) : (beBytes w n).length = w := by simp [beBytes]

lemma leNat_lt (bs : List UInt8) : leNat bs < 256 ^ bs.length := by
  induction bs with
  | nil => simp [leNat]
  | cons b bs ih =>
      have hb : b.toNat < 256 := b.toNat_lt
      rw [leNat, List.length_cons, pow_succ]
      omega

lemma beNat_lt (bs : List UInt8) : beNat bs < 256 ^ bs.length := by
  simpa [beNat] using leNat_lt bs.reverse

lemma leNat_leBytes {w n : ℕ} (h : n < 256 ^ w) : leNat (leBytes w n) = n := by
  induction w generalizing n with
  | zero => simp only [pow_zero, Nat.lt_one_iff] at h; simp [leBytes, leNat, h]
  | succ w ih =>
      have hdiv : n / 256 < 256 ^ w := by
        rw [pow_succ] at h
        omega
      have hlow : (UInt8.ofNat n).toNat = n % 256 := by simp
      rw [leBytes, leNat, ih hdiv, hlow]
      omega

lemma beNat_beBytes {w n : ℕ} (h : n < 256 ^ w) : beNat (beBytes w n) = n := by
  rw [beNat, beBytes, List.reverse_reverse, leNat_leBytes h]

lemma leNat_append (bs cs : List UInt8) :
    leNat (bs ++ cs) = leNat bs + 256 ^ bs.length * leNat cs := by
  induction bs with
  | nil => simp [leNat]
  | cons b bs ih =>
      rw [List.cons_append, leNat, leNat, ih, List.length_cons]
      ring

lemma leNat_replicate_zero (n : ℕ) : leNat (List.replicate n 0) = 0 := by
  induction n with
  | zero => rfl
  | succ n ih => simp [List.replicate_succ, leNat, ih]

lemma leNat_leBytes_mod (w n : ℕ) : leNat (leBytes w n) = n % 256 ^ w := by
  induction w generalizing n with
  | zero => simp [leBytes, leNat, Nat.mod_one]
  | succ w ih =>
      have hlow : (UInt8.ofNat n).toNat = n % 256 := by simp
      rw [leBytes, leNat, ih, hlow, pow_succ, Nat.mul_comm (256 ^ w), Nat.mod_mul]

lemma leBytes_leNat (bs : List UInt8) : leBytes bs.length (leNat bs) = bs := by
  induction bs with
  | nil => rfl
  | cons b bs ih =>
      have hb : b.toNat < 256 := b.toNat_lt
      have hdiv : (b.toNat + 256 * leNat bs) / 256 = leNat bs := by omega
      have hlow : UInt8.ofNat (b.toNat + 256 * leNat bs) = b := by
        apply UInt8.toNat_inj.mp
        simp
      rw [List.length_cons, leNat, leBytes, hdiv, ih, hlow]

lemma beBytes_beNat (bs : List UInt8) : beBytes bs.length (beNat bs) = bs := by
  have h := leBytes_leNat bs.reverse
  rw [List.length_reverse] at h
  rw [beBytes, beNat, h, List.reverse_reverse]

lemma leNat_replicate_max (n : ℕ) : leNat (List.replicate n 255) + 1 = 256 ^ n := by
  induction n with
  | zero => rfl
  | succ n ih =>
      rw [List.replicate_succ, leNat, pow_succ, ← ih]
      have : (255 : UInt8).toNat = 255 := rfl
      omega

/-- Numbers that fit are told apart by their bytes. -/
lemma leBytes_inj {w m n : ℕ} (hm : m < 256 ^ w) (hn : n < 256 ^ w) :
    leBytes w m = leBytes w n ↔ m = n := by
  refine ⟨fun h => ?_, fun h => h ▸ rfl⟩
  rw [← leNat_leBytes hm, h, leNat_leBytes hn]

lemma beBytes_inj {w m n : ℕ} (hm : m < 256 ^ w) (hn : n < 256 ^ w) :
    beBytes w m = beBytes w n ↔ m = n := by
  rw [beBytes, beBytes, List.reverse_inj, leBytes_inj hm hn]

/-- Only the low bytes of a number are spelled. -/
lemma leBytes_mod (w n : ℕ) : leBytes w (n % 256 ^ w) = leBytes w n := by
  have h := leBytes_leNat (leBytes w n)
  rw [length_leBytes, leNat_leBytes_mod] at h
  exact h

lemma take_leBytes {w v : ℕ} (h : w ≤ v) (n : ℕ) : (leBytes v n).take w = leBytes w n := by
  induction w generalizing v n with
  | zero => rfl
  | succ w ih =>
      obtain ⟨v, rfl⟩ : ∃ v', v = v' + 1 := ⟨v - 1, by omega⟩
      rw [leBytes, leBytes, List.take_succ_cons, ih (by omega)]

lemma drop_beBytes {w v : ℕ} (h : w ≤ v) (n : ℕ) : (beBytes v n).drop (v - w) = beBytes w n := by
  rw [beBytes, beBytes, ← take_leBytes h, List.reverse_take, length_leBytes]

/-- The last byte is the most significant one. -/
lemma leBytes_succ (w n : ℕ) : leBytes (w + 1) n = leBytes w n ++ [UInt8.ofNat (n / 256 ^ w)] := by
  induction w generalizing n with
  | zero => simp [leBytes]
  | succ w ih =>
      rw [leBytes, ih, leBytes, List.cons_append, Nat.div_div_eq_div_mul, pow_succ, Nat.mul_comm]

/-- The bytes of `bs` from `start` up to `stop`, when that range lies in `bs`. -/
def slice {α : Type} (bs : List α) (start stop : ℕ) : Option (List α) :=
  if start ≤ stop ∧ stop ≤ bs.length then some ((bs.drop start).take (stop - start)) else none

lemma slice_eq_some {α : Type} {bs out : List α} {start stop : ℕ} :
    slice bs start stop = some out ↔
      start ≤ stop ∧ stop ≤ bs.length ∧ (bs.drop start).take (stop - start) = out := by
  rw [slice]
  split
  · next h => simp [h.1, h.2]
  · next h =>
      simp only [reduceCtorEq, false_iff]
      exact fun h' => h ⟨h'.1, h'.2.1⟩

lemma slice_length {α : Type} {bs out : List α} {start stop : ℕ}
    (h : slice bs start stop = some out) : out.length = stop - start := by
  obtain ⟨h1, h2, rfl⟩ := slice_eq_some.mp h
  rw [List.length_take, List.length_drop]
  omega

/-- A slice of length one is the element at its start. -/
lemma slice_one {α : Type} (bs : List α) (start : ℕ) :
    slice bs start (start + 1) = bs[start]?.map fun a => [a] := by
  rw [slice]
  split
  · next h =>
      have hlt : start < bs.length := by omega
      rw [List.getElem?_eq_getElem hlt, show start + 1 - start = 1 by omega,
        List.drop_eq_getElem_cons hlt]
      rfl
  · next h =>
      rw [List.getElem?_eq_none (by omega)]
      rfl

/-- The slice of `pre ++ mid ++ post` that `mid` occupies. -/
lemma slice_append {α : Type} (pre mid post : List α) :
    slice (pre ++ (mid ++ post)) pre.length (pre.length + mid.length) = some mid := by
  rw [slice_eq_some]
  refine ⟨by omega, by simp only [List.length_append]; omega, ?_⟩
  rw [List.drop_left, show pre.length + mid.length - pre.length = mid.length by omega,
    List.take_left]

/-- One of the parts that something is laid out from, in its place. -/
lemma slice_flatten {α : Type} {parts : List (List α)} {k start stop : ℕ} {part : List α}
    (h : parts[k]? = some part) (hstart : (parts.take k).flatten.length = start)
    (hstop : start + part.length = stop) : slice parts.flatten start stop = some part := by
  obtain ⟨hk, rfl⟩ := List.getElem?_eq_some_iff.mp h
  have hparts : parts.flatten
      = (parts.take k).flatten ++ (parts[k] ++ (parts.drop (k + 1)).flatten) := by
    rw [← List.flatten_cons, List.getElem_cons_drop, ← List.flatten_append, List.take_append_drop]
  subst hstart hstop
  rw [hparts]
  exact slice_append _ _ _

/-- Two slices, one behind the other. -/
lemma slice_join {α : Type} {bs xs ys : List α} {start mid stop : ℕ}
    (hxs : slice bs start mid = some xs) (hys : slice bs mid stop = some ys) :
    slice bs start stop = some (xs ++ ys) := by
  obtain ⟨h₁, h₂, rfl⟩ := slice_eq_some.mp hxs
  obtain ⟨h₃, h₄, rfl⟩ := slice_eq_some.mp hys
  refine slice_eq_some.mpr ⟨by omega, h₄, ?_⟩
  rw [show stop - start = (mid - start) + (stop - mid) by omega, List.take_add, List.drop_drop,
    show start + (mid - start) = mid by omega]

/-- The slice of everything. -/
lemma slice_self {α : Type} (bs : List α) : slice bs 0 bs.length = some bs :=
  slice_eq_some.mpr ⟨Nat.zero_le _, Nat.le_refl _, by simp⟩

end Lib
