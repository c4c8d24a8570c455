import RustBinary.Aead.Poly1305

/-!
# The tag

What the tag of a message is, as arithmetic modulo `2 ^ 130 - 5`, and when the code computes
it.  The accumulator of the code is carried once a block, so that its value is determined only
up to a multiple of the modulus and its third limb may be full; the last step of the code takes
neither back.
-/

namespace RustBinary.Aead

open Lib Lib.Outcome

/-! ## The tag of a message -/

/-- The modulus. -/
def prime : ℕ := 2 ^ 130 - 5

/-- A chunk with a one above it, as a number. -/
def blockNat (chunk : List UInt8) : ℕ := leNat (chunk ++ [1])

/-- The evaluation of the chunks at `r`. -/
def horner (r : ℕ) (cs : List (List UInt8)) : ℕ :=
  cs.foldl (fun acc chunk => (acc + blockNat chunk) * r % prime) 0

/-- The tag of `msg` under the one-time key `r`, `s`. -/
def rfcTag (r s : Vector UInt8 16) (msg : List UInt8) : List UInt8 :=
  leBytes 16
    ((horner (leNat r.toList) (chunks msg.length msg) % prime + leNat s.toList) % 2 ^ 128)

/-! ## The accumulator between blocks -/

namespace Limbs

/-- The number that the limbs stand for. -/
def value (x : Limbs) : ℕ := Nat.ofDigits (2 ^ 26) [x.l0, x.l1, x.l2, x.l3, x.l4]

def add (x y : Limbs) : Limbs :=
  ⟨x.l0 + y.l0, x.l1 + y.l1, x.l2 + y.l2, x.l3 + y.l3, x.l4 + y.l4⟩

/-- The sum of the products of the limbs. -/
def dot (x y : Limbs) : ℕ :=
  x.l0 * y.l0 + x.l1 * y.l1 + x.l2 * y.l2 + x.l3 * y.l3 + x.l4 * y.l4

/-- The columns of the product of `x` and `r`, those above bit 130 put back five times. -/
def columns (x r : Limbs) : Limbs where
  l0 := x.dot ⟨r.l0, 5 * r.l4, 5 * r.l3, 5 * r.l2, 5 * r.l1⟩
  l1 := x.dot ⟨r.l1, r.l0, 5 * r.l4, 5 * r.l3, 5 * r.l2⟩
  l2 := x.dot ⟨r.l2, r.l1, r.l0, 5 * r.l4, 5 * r.l3⟩
  l3 := x.dot ⟨r.l3, r.l2, r.l1, r.l0, 5 * r.l4⟩
  l4 := x.dot ⟨r.l4, r.l3, r.l2, r.l1, r.l0⟩

/-- Every limb is below `n`. -/
def Below (n : ℕ) (x : Limbs) : Prop :=
  x.l0 < n ∧ x.l1 < n ∧ x.l2 < n ∧ x.l3 < n ∧ x.l4 < n

/-- The limbs after one pass of carries: only the third may be full. -/
def Carried (x : Limbs) : Prop :=
  x.l0 < 2 ^ 26 ∧ x.l1 < 2 ^ 26 ∧ x.l2 ≤ 2 ^ 26 ∧ x.l3 < 2 ^ 26 ∧ x.l4 < 2 ^ 26

lemma value_eq (x : Limbs) :
    x.value = x.l0 + 2 ^ 26 * x.l1 + 2 ^ 52 * x.l2 + 2 ^ 78 * x.l3 + 2 ^ 104 * x.l4 := by
  simp only [value, Nat.ofDigits_cons, Nat.ofDigits_nil]
  ring

lemma value_add (x y : Limbs) : (x.add y).value = x.value + y.value := by
  simp only [value_eq, add]
  ring

/-- The columns stand for the product, up to a multiple of the modulus. -/
lemma value_columns (x r : Limbs) : (columns x r).value ≡ x.value * r.value [MOD prime] := by
  let high : ℕ :=
    (x.l1 * r.l4 + x.l2 * r.l3 + x.l3 * r.l2 + x.l4 * r.l1)
      + 2 ^ 26 * (x.l2 * r.l4 + x.l3 * r.l3 + x.l4 * r.l2)
      + 2 ^ 52 * (x.l3 * r.l4 + x.l4 * r.l3) + 2 ^ 78 * (x.l4 * r.l4)
  have hsplit : x.value * r.value + 5 * high = (columns x r).value + 2 ^ 130 * high := by
    simp only [value_eq, columns, dot, high]
    ring
  have hprime : x.value * r.value = (columns x r).value + prime * high := by
    rw [prime]
    omega
  rw [hprime, Nat.ModEq, Nat.add_mul_mod_self_left]

end Limbs

/-- The limbs of `p` after one pass of carries and one fold of what lies above bit 130. -/
def settle (p : ℕ) : Limbs :=
  let low := p % 2 ^ 26 + 5 * (p / 2 ^ 130)
  let next := p / 2 ^ 26 % 2 ^ 26 + low / 2 ^ 26
  ⟨low % 2 ^ 26, next % 2 ^ 26, p / 2 ^ 52 % 2 ^ 26 + next / 2 ^ 26, p / 2 ^ 78 % 2 ^ 26,
    p / 2 ^ 104 % 2 ^ 26⟩

/-- The evaluation of the chunks with one pass of carries a block: the product of the last
block, its carries still to come. -/
def lazyHorner (r : Limbs) (cs : List (List UInt8)) : ℕ :=
  cs.foldl (fun p chunk => ((settle p).add (limbsOfBlock (blockOf chunk))).columns r |>.value) 0

/-- One fold leaves `p` below the modulus, and no carry that the last step would lose: none
leaves the third limb, or the fourth is even. -/
def Settled (p : ℕ) : Prop :=
  fold 130 5 p < prime ∧ (p % 2 ^ 78 + 5 * (p / 2 ^ 130) < 2 ^ 78 ∨ p / 2 ^ 78 % 2 = 0)

instance (p : ℕ) : Decidable (Settled p) := by unfold Settled; infer_instance

/-- A number in five limbs and what lies above them. -/
lemma exists_parts (p : ℕ) :
    ∃ a b c d e f, a < 2 ^ 26 ∧ b < 2 ^ 26 ∧ c < 2 ^ 26 ∧ d < 2 ^ 26 ∧ e < 2 ^ 26 ∧
      p = a + 2 ^ 26 * b + 2 ^ 52 * c + 2 ^ 78 * d + 2 ^ 104 * e + 2 ^ 130 * f := by
  have hmod : ∀ k : ℕ, p / 2 ^ k % 2 ^ 26 < 2 ^ 26 := fun k => Nat.mod_lt _ (by decide)
  refine ⟨p % 2 ^ 26, p / 2 ^ 26 % 2 ^ 26, p / 2 ^ 52 % 2 ^ 26, p / 2 ^ 78 % 2 ^ 26,
    p / 2 ^ 104 % 2 ^ 26, p / 2 ^ 130, Nat.mod_lt _ (by decide), hmod 26, hmod 52, hmod 78,
    hmod 104, ?_⟩
  omega

/-- `settle` in terms of the parts of the number. -/
lemma settle_parts {a b c d e : ℕ} (f : ℕ) (ha : a < 2 ^ 26) (hb : b < 2 ^ 26) (hc : c < 2 ^ 26)
    (hd : d < 2 ^ 26) (he : e < 2 ^ 26) :
    settle (a + 2 ^ 26 * b + 2 ^ 52 * c + 2 ^ 78 * d + 2 ^ 104 * e + 2 ^ 130 * f) =
      ⟨(a + 5 * f) % 2 ^ 26, (b + (a + 5 * f) / 2 ^ 26) % 2 ^ 26,
        c + (b + (a + 5 * f) / 2 ^ 26) / 2 ^ 26, d, e⟩ := by
  let p := a + 2 ^ 26 * b + 2 ^ 52 * c + 2 ^ 78 * d + 2 ^ 104 * e + 2 ^ 130 * f
  have h0 : p % 2 ^ 26 = a := by omega
  have h1 : p / 2 ^ 26 % 2 ^ 26 = b := by omega
  have h2 : p / 2 ^ 52 % 2 ^ 26 = c := by omega
  have h3 : p / 2 ^ 78 % 2 ^ 26 = d := by omega
  have h4 : p / 2 ^ 104 % 2 ^ 26 = e := by omega
  have h5 : p / 2 ^ 130 = f := by omega
  change settle p = _
  simp only [settle, h0, h1, h2, h3, h4, h5]

lemma value_settle (p : ℕ) : (settle p).value = fold 130 5 p := by
  obtain ⟨a, b, c, d, e, f, ha, hb, hc, hd, he, rfl⟩ := exists_parts p
  rw [settle_parts f ha hb hc hd he, Limbs.value_eq, fold]
  dsimp only
  omega

lemma carried_settle {p : ℕ} (hp : p < 2 ^ 166) : (settle p).Carried := by
  obtain ⟨a, b, c, d, e, f, ha, hb, hc, hd, he, rfl⟩ := exists_parts p
  rw [settle_parts f ha hb hc hd he, Limbs.Carried]
  dsimp only
  omega

/-- The third limb is full when a carry has left it. -/
lemma settle_l2_lt_iff (p : ℕ) :
    (settle p).l2 < 2 ^ 26 ↔ p % 2 ^ 78 + 5 * (p / 2 ^ 130) < 2 ^ 78 := by
  obtain ⟨a, b, c, d, e, f, ha, hb, hc, hd, he, rfl⟩ := exists_parts p
  rw [settle_parts f ha hb hc hd he]
  have hlow : (a + 2 ^ 26 * b + 2 ^ 52 * c + 2 ^ 78 * d + 2 ^ 104 * e + 2 ^ 130 * f) % 2 ^ 78
      = a + 2 ^ 26 * b + 2 ^ 52 * c := by omega
  have hhigh : (a + 2 ^ 26 * b + 2 ^ 52 * c + 2 ^ 78 * d + 2 ^ 104 * e + 2 ^ 130 * f) / 2 ^ 130
      = f := by omega
  rw [hlow, hhigh]
  dsimp only
  omega

lemma settle_l3 (p : ℕ) : (settle p).l3 = p / 2 ^ 78 % 2 ^ 26 := rfl

/-! ## The code computes the lazy evaluation -/

open Limbs

lemma and_mask (n : ℕ) : n &&& 0x3ffffff = n % 2 ^ 26 := Nat.and_two_pow_sub_one_eq_mod n 26

lemma dotU64_eq {x y : Limbs} (hx : x.Below (2 ^ 28)) (hy : y.Below (2 ^ 29)) :
    dotU64 x y = ok (x.dot y) ∧ x.dot y < 2 ^ 60 := by
  obtain ⟨hx0, hx1, hx2, hx3, hx4⟩ := hx
  obtain ⟨hy0, hy1, hy2, hy3, hy4⟩ := hy
  have hmul {a b : ℕ} (ha : a < 2 ^ 28) (hb : b < 2 ^ 29) : a * b < 2 ^ 57 :=
    (Nat.mul_lt_mul'' ha hb).trans_eq (by norm_num)
  have h0 := hmul hx0 hy0
  have h1 := hmul hx1 hy1
  have h2 := hmul hx2 hy2
  have h3 := hmul hx3 hy3
  have h4 := hmul hx4 hy4
  rw [dot]
  refine ⟨?_, by omega⟩
  simp (disch := omega) only [dotU64, mulU64, addU64, checked_of_lt, ok_bind]

/-- The carries of the code are those of `settle`. -/
lemma carryLimbs_eq {d : Limbs} (hd : d.Below (2 ^ 60)) : carryLimbs d = ok (settle d.value) := by
  obtain ⟨hd0, hd1, hd2, hd3, hd4⟩ := hd
  let c1 := d.l0 / 2 ^ 26 + d.l1
  let c2 := c1 / 2 ^ 26 + d.l2
  let c3 := c2 / 2 ^ 26 + d.l3
  let c4 := c3 / 2 ^ 26 + d.l4
  have hmod (n : ℕ) : n % 2 ^ 26 < 2 ^ 26 := Nat.mod_lt _ (by decide)
  have hvalue : d.value = d.l0 % 2 ^ 26 + 2 ^ 26 * (c1 % 2 ^ 26) + 2 ^ 52 * (c2 % 2 ^ 26)
      + 2 ^ 78 * (c3 % 2 ^ 26) + 2 ^ 104 * (c4 % 2 ^ 26) + 2 ^ 130 * (c4 / 2 ^ 26) := by
    have h := propagate_value (2 ^ 26) 0 [d.l0, d.l1, d.l2, d.l3, d.l4]
    simp only [propagate, Nat.ofDigits_cons, Nat.ofDigits_nil, List.length_cons, List.length_nil,
      Nat.zero_add] at h
    simp only [value_eq, c1, c2, c3, c4]
    omega
  rw [hvalue, settle_parts _ (hmod _) (hmod _) (hmod _) (hmod _) (hmod _)]
  simp (disch := omega) only [carryLimbs, addU64, mulU64, checked_of_lt, ok_bind, and_mask,
    Nat.shiftRight_eq_div_pow, Nat.mul_comm _ 5]
  -- every limb fits in a word of 32 bits
  simp (disch := omega) only [Nat.mod_eq_of_lt (b := 2 ^ 32), c1, c2, c3, c4]

lemma poly1305Accumulate_eq {h r : Limbs} {block : Vector UInt8 17} (hh : h.Carried)
    (hr : r.Below (2 ^ 26)) (hb : (limbsOfBlock block).Below (2 ^ 26)) :
    poly1305Accumulate h block r = ok (settle ((h.add (limbsOfBlock block)).columns r).value) ∧
      ((h.add (limbsOfBlock block)).columns r).value < 2 ^ 166 := by
  obtain ⟨hh0, hh1, hh2, hh3, hh4⟩ := hh
  obtain ⟨hr0, hr1, hr2, hr3, hr4⟩ := hr
  obtain ⟨hb0, hb1, hb2, hb3, hb4⟩ := hb
  let x := h.add (limbsOfBlock block)
  have hx : x.Below (2 ^ 28) := by
    simp only [x, Below, add]
    omega
  -- the five columns fit in 64 bits, and so do the carries
  obtain ⟨e0, hd0⟩ := dotU64_eq (y := ⟨r.l0, 5 * r.l4, 5 * r.l3, 5 * r.l2, 5 * r.l1⟩) hx
    (by simp only [Below]; omega)
  obtain ⟨e1, hd1⟩ := dotU64_eq (y := ⟨r.l1, r.l0, 5 * r.l4, 5 * r.l3, 5 * r.l2⟩) hx
    (by simp only [Below]; omega)
  obtain ⟨e2, hd2⟩ := dotU64_eq (y := ⟨r.l2, r.l1, r.l0, 5 * r.l4, 5 * r.l3⟩) hx
    (by simp only [Below]; omega)
  obtain ⟨e3, hd3⟩ := dotU64_eq (y := ⟨r.l3, r.l2, r.l1, r.l0, 5 * r.l4⟩) hx
    (by simp only [Below]; omega)
  obtain ⟨e4, hd4⟩ := dotU64_eq (y := ⟨r.l4, r.l3, r.l2, r.l1, r.l0⟩) hx
    (by simp only [Below]; omega)
  have hcolumns : (x.columns r).Below (2 ^ 60) := ⟨hd0, hd1, hd2, hd3, hd4⟩
  have hbound : (x.columns r).value < 2 ^ 166 := by
    rw [value_eq]
    simp only [columns]
    omega
  refine ⟨?_, hbound⟩
  rw [← carryLimbs_eq hcolumns]
  simp only [x, add] at e0 e1 e2 e3 e4
  simp (disch := omega) only [poly1305Accumulate, addU64, mulU64, checked_of_lt, ok_bind, e0, e1, e2,
    e3, e4]
  rfl

/-! ## Keys and blocks in limbs -/

lemma limb_eq (a b c d : UInt8) (shift : ℕ) :
    limb a b c d shift = leNat [a, b, c, d] / 2 ^ shift % 2 ^ 26 := by
  rw [limb, and_mask, Nat.shiftRight_eq_div_pow]

lemma limb_lt (a b c d : UInt8) (shift : ℕ) : limb a b c d shift < 2 ^ 26 := by
  rw [limb_eq]
  exact Nat.mod_lt _ (by decide)

lemma toList_vector {n : ℕ} (v : Vector UInt8 n) :
    v.toList = List.ofFn fun i : Fin n => v.get i := by
  apply List.ext_getElem
  · simp
  · intro i h1 h2
    rw [List.getElem_ofFn, Vector.getElem_toList]
    rfl

/-- Sixteen bytes as five limbs, which overlap in bytes 3, 6 and 9. -/
lemma limbs_value (b0 b1 b2 b3 b4 b5 b6 b7 b8 b9 b10 b11 b12 b13 b14 b15 : UInt8) :
    Limbs.value ⟨limb b0 b1 b2 b3 0, limb b3 b4 b5 b6 2, limb b6 b7 b8 b9 4, limb b9 b10 b11 b12 6,
      limb b12 b13 b14 b15 8⟩
      = leNat [b0, b1, b2, b3, b4, b5, b6, b7, b8, b9, b10, b11, b12, b13, b14, b15] ∧
      limb b12 b13 b14 b15 8 < 2 ^ 24 := by
  have h0 : limb b0 b1 b2 b3 0
      = b0.toNat + 2 ^ 8 * b1.toNat + 2 ^ 16 * b2.toNat + 2 ^ 24 * (b3.toNat % 4) := by
    have hb0 := b0.toNat_lt
    have hb1 := b1.toNat_lt
    have hb2 := b2.toNat_lt
    simp only [limb_eq, leNat]
    omega
  have h1 : limb b3 b4 b5 b6 2
      = b3.toNat / 4 + 2 ^ 6 * b4.toNat + 2 ^ 14 * b5.toNat + 2 ^ 22 * (b6.toNat % 16) := by
    have hb3 := b3.toNat_lt
    have hb4 := b4.toNat_lt
    have hb5 := b5.toNat_lt
    simp only [limb_eq, leNat]
    omega
  have h2 : limb b6 b7 b8 b9 4
      = b6.toNat / 16 + 2 ^ 4 * b7.toNat + 2 ^ 12 * b8.toNat + 2 ^ 20 * (b9.toNat % 64) := by
    have hb6 := b6.toNat_lt
    have hb7 := b7.toNat_lt
    have hb8 := b8.toNat_lt
    simp only [limb_eq, leNat]
    omega
  have h3 : limb b9 b10 b11 b12 6
      = b9.toNat / 64 + 2 ^ 2 * b10.toNat + 2 ^ 10 * b11.toNat + 2 ^ 18 * b12.toNat := by
    have hb9 := b9.toNat_lt
    have hb10 := b10.toNat_lt
    have hb11 := b11.toNat_lt
    have hb12 := b12.toNat_lt
    simp only [limb_eq, leNat]
    omega
  have h4 : limb b12 b13 b14 b15 8 = b13.toNat + 2 ^ 8 * b14.toNat + 2 ^ 16 * b15.toNat := by
    have hb12 := b12.toNat_lt
    have hb13 := b13.toNat_lt
    have hb14 := b14.toNat_lt
    have hb15 := b15.toNat_lt
    simp only [limb_eq, leNat]
    omega
  refine ⟨?_, ?_⟩
  · simp only [value_eq, h0, h1, h2, h3, h4, leNat]
    omega
  · have hb13 := b13.toNat_lt
    have hb14 := b14.toNat_lt
    have hb15 := b15.toNat_lt
    omega

lemma limbsOfKey_below (r : Vector UInt8 16) : (limbsOfKey r).Below (2 ^ 26) := by
  simp only [limbsOfKey, Below, and_mask]
  refine ⟨?_, ?_, ?_, ?_, ?_⟩ <;> exact Nat.mod_lt _ (by decide)

lemma limbsOfKey_value (r : Vector UInt8 16) : (limbsOfKey r).value = leNat r.toList := by
  have hvalue := (limbs_value (r.get 0) (r.get 1) (r.get 2) (r.get 3) (r.get 4) (r.get 5)
    (r.get 6) (r.get 7) (r.get 8) (r.get 9) (r.get 10) (r.get 11) (r.get 12) (r.get 13)
    (r.get 14) (r.get 15)).1
  have hmask (a b c d : UInt8) (k : ℕ) : limb a b c d k &&& 0x3ffffff = limb a b c d k := by
    rw [and_mask, Nat.mod_eq_of_lt (limb_lt a b c d k)]
  simp only [limbsOfKey, hmask]
  rw [hvalue, toList_vector]
  rfl

/-- The limbs of a block hold its seventeen bytes when the last one is zero or one. -/
lemma limbsOfBlock_value (block : Vector UInt8 17) (htop : (block.get 16).toNat ≤ 1) :
    (limbsOfBlock block).value = leNat block.toList ∧ (limbsOfBlock block).Below (2 ^ 26) := by
  obtain ⟨hvalue, hlast⟩ := limbs_value (block.get 0) (block.get 1) (block.get 2) (block.get 3)
    (block.get 4) (block.get 5) (block.get 6) (block.get 7) (block.get 8) (block.get 9)
    (block.get 10) (block.get 11) (block.get 12) (block.get 13) (block.get 14) (block.get 15)
  have hor : limb (block.get 12) (block.get 13) (block.get 14) (block.get 15) 8
        ||| (block.get 16).toNat <<< 24
      = limb (block.get 12) (block.get 13) (block.get 14) (block.get 15) 8
        + 2 ^ 24 * (block.get 16).toNat := by
    rw [Nat.or_comm, ← Nat.shiftLeft_add_eq_or_of_lt hlast, Nat.shiftLeft_eq]
    ring
  refine ⟨?_, ?_⟩
  · have hbytes : leNat block.toList = leNat [block.get 0, block.get 1, block.get 2, block.get 3,
        block.get 4, block.get 5, block.get 6, block.get 7, block.get 8, block.get 9, block.get 10,
        block.get 11, block.get 12, block.get 13, block.get 14, block.get 15]
        + 2 ^ 128 * (block.get 16).toNat := by
      have hsplit : block.toList = [block.get 0, block.get 1, block.get 2, block.get 3, block.get 4,
          block.get 5, block.get 6, block.get 7, block.get 8, block.get 9, block.get 10,
          block.get 11, block.get 12, block.get 13, block.get 14, block.get 15]
          ++ [block.get 16] := by
        rw [toList_vector]
        rfl
      rw [hsplit, leNat_append]
      simp only [List.length_cons, List.length_nil, leNat]
      norm_num
    rw [hbytes, ← hvalue]
    simp only [value_eq, limbsOfBlock, hor]
    ring
  · simp only [Below, limbsOfBlock, hor]
    refine ⟨limb_lt _ _ _ _ _, limb_lt _ _ _ _ _, limb_lt _ _ _ _ _, limb_lt _ _ _ _ _, ?_⟩
    omega

lemma blockOf_toList {chunk : List UInt8} (h : chunk.length ≤ 16) :
    (blockOf chunk).toList = (chunk ++ [1]) ++ List.replicate (16 - chunk.length) 0 := by
  apply List.ext_getElem
  · simp only [Vector.length_toList, List.length_append, List.length_singleton,
      List.length_replicate]
    omega
  · intro i h1 h2
    simp only [blockOf, Vector.getElem_toList, Vector.getElem_ofFn]
    by_cases hi : i < (chunk ++ [1]).length
    · rw [List.getElem_append_left hi, List.getD_eq_getElem _ _ hi]
    · rw [List.getElem_append_right (by omega), List.getElem_replicate,
        List.getD_eq_default _ _ (by omega)]

lemma limbsOfBlock_blockOf {chunk : List UInt8} (h : chunk.length ≤ 16) :
    (limbsOfBlock (blockOf chunk)).value = blockNat chunk ∧
      (limbsOfBlock (blockOf chunk)).Below (2 ^ 26) := by
  have htop : ((blockOf chunk).get 16).toNat ≤ 1 := by
    have hget : (blockOf chunk).get 16 = (chunk ++ [1]).getD 16 0 := Vector.getElem_ofFn _
    rw [hget]
    by_cases hi : 16 < (chunk ++ [1]).length
    · have hlen : chunk.length = 16 := by
        simp only [List.length_append, List.length_singleton] at hi
        omega
      rw [List.getD_eq_getElem _ _ hi, List.getElem_append_right (by omega)]
      simp [hlen]
    · rw [List.getD_eq_default _ _ (by omega)]
      simp
  obtain ⟨hvalue, hbelow⟩ := limbsOfBlock_value (blockOf chunk) htop
  refine ⟨?_, hbelow⟩
  rw [hvalue, blockOf_toList h, leNat_append, leNat_replicate_zero, blockNat]
  omega

/-! ## The evaluation -/

lemma chunks_length {n : ℕ} {msg : List UInt8} : ∀ chunk ∈ chunks n msg, chunk.length ≤ 16 := by
  induction n generalizing msg with
  | zero => simp [chunks]
  | succ n ih =>
      intro chunk hchunk
      rw [chunks] at hchunk
      split at hchunk
      · exact absurd hchunk (by simp)
      · rcases List.mem_cons.mp hchunk with rfl | hrest
        · exact List.length_take_le _ _
        · exact ih chunk hrest

/-- The code's accumulator after some chunks: a lazy evaluation, carried once. -/
lemma accumulateChunks_eq {r : Limbs} (hr : r.Below (2 ^ 26)) (cs : List (List UInt8))
    (hcs : ∀ chunk ∈ cs, chunk.length ≤ 16) {p : ℕ} (hp : p < 2 ^ 166) :
    ∃ q, q = cs.foldl
        (fun p chunk => (((settle p).add (limbsOfBlock (blockOf chunk))).columns r).value) p ∧
      q < 2 ^ 166 ∧ accumulateChunks r (settle p) cs = ok (settle q) := by
  induction cs generalizing p with
  | nil => exact ⟨p, rfl, hp, rfl⟩
  | cons chunk cs ih =>
      obtain ⟨hstep, hbound⟩ := poly1305Accumulate_eq (carried_settle hp) hr
        (limbsOfBlock_blockOf (hcs chunk List.mem_cons_self)).2
      obtain ⟨q, hq, hlt, hrun⟩ := ih (fun c hc => hcs c (List.mem_cons_of_mem _ hc)) hbound
      refine ⟨q, hq, hlt, ?_⟩
      rw [accumulateChunks, hstep, ok_bind, hrun]

/-- A lazy evaluation is the evaluation, up to a multiple of the modulus. -/
lemma foldl_modEq (r : Limbs) {cs : List (List UInt8)} (hcs : ∀ chunk ∈ cs, chunk.length ≤ 16)
    {p acc : ℕ} (h : p ≡ acc [MOD prime]) :
    cs.foldl (fun p chunk => (((settle p).add (limbsOfBlock (blockOf chunk))).columns r).value) p
      ≡ cs.foldl (fun acc chunk => (acc + blockNat chunk) * r.value % prime) acc [MOD prime] := by
  induction cs generalizing p acc with
  | nil => exact h
  | cons chunk cs ih =>
      apply ih fun c hc => hcs c (List.mem_cons_of_mem _ hc)
      have hsettle : (settle p).value ≡ acc [MOD prime] := by
        rw [value_settle]
        exact (fold_modEq (by decide) p).trans h
      calc (((settle p).add (limbsOfBlock (blockOf chunk))).columns r).value
          ≡ ((settle p).add (limbsOfBlock (blockOf chunk))).value * r.value [MOD prime] :=
            value_columns _ _
        _ = ((settle p).value + blockNat chunk) * r.value := by
            rw [value_add, (limbsOfBlock_blockOf (hcs chunk List.mem_cons_self)).1]
        _ ≡ (acc + blockNat chunk) * r.value [MOD prime] := (hsettle.add_right _).mul_right _
        _ ≡ (acc + blockNat chunk) * r.value % prime [MOD prime] := (Nat.mod_modEq _ _).symm

lemma lazyHorner_modEq (r : Vector UInt8 16) {cs : List (List UInt8)}
    (hcs : ∀ chunk ∈ cs, chunk.length ≤ 16) :
    lazyHorner (limbsOfKey r) cs ≡ horner (leNat r.toList) cs [MOD prime] := by
  rw [lazyHorner, horner, ← limbsOfKey_value]
  exact foldl_modEq (limbsOfKey r) hcs rfl

/-! ## The last step -/

/-- Numbers that do not overlap below bit `k` are joined there. -/
lemma or_shiftLeft {a k : ℕ} (ha : a < 2 ^ k) (u v : ℕ) :
    (a + 2 ^ k * u) ||| v <<< k = a + 2 ^ k * (u ||| v) := by
  have hjoin (w : ℕ) : a + 2 ^ k * w = w <<< k ||| a := by
    rw [← Nat.shiftLeft_add_eq_or_of_lt ha, Nat.shiftLeft_eq]
    ring
  rw [hjoin, hjoin, Nat.shiftLeft_or_distrib, Nat.or_assoc, Nat.or_comm a, ← Nat.or_assoc]

/-- The low 128 bits that the code composes: the carry out of a full third limb is joined with
the fourth limb, not added to it. -/
def composed (h : Limbs) : ℕ :=
  h.l0 + 2 ^ 26 * h.l1 + 2 ^ 52 * (h.l2 % 2 ^ 26) + 2 ^ 78 * (h.l2 / 2 ^ 26 ||| h.l3)
    + 2 ^ 104 * (h.l4 % 2 ^ 24)

lemma composed_eq {h : Limbs} (hh : h.Carried) :
    h.l0 ||| shlU128 h.l1 26 ||| shlU128 h.l2 52 ||| shlU128 h.l3 78
      ||| shlU128 (h.l4 &&& 0x00ffffff) 104 = composed h := by
  obtain ⟨h0, h1, h2, h3, h4⟩ := hh
  have hmask : h.l4 &&& 0x00ffffff = h.l4 % 2 ^ 24 := Nat.and_two_pow_sub_one_eq_mod h.l4 24
  have hshift {a k : ℕ} (ha : a * 2 ^ k < 2 ^ 128) : shlU128 a k = a <<< k := by
    rw [shlU128, Nat.shiftLeft_eq, Nat.mod_eq_of_lt ha]
  have htop : h.l2 / 2 ^ 26 ||| h.l3 < 2 ^ 26 := Nat.or_lt_two_pow (by omega) h3
  have e1 := or_shiftLeft (a := h.l0) (k := 26) h0 0 h.l1
  have e2 := or_shiftLeft (a := h.l0 + 2 ^ 26 * h.l1) (k := 52) (by omega) 0 h.l2
  have e3 := or_shiftLeft (a := h.l0 + 2 ^ 26 * h.l1 + 2 ^ 52 * (h.l2 % 2 ^ 26)) (k := 78) (by omega)
    (h.l2 / 2 ^ 26) h.l3
  have e4 := or_shiftLeft (a := h.l0 + 2 ^ 26 * h.l1 + 2 ^ 52 * (h.l2 % 2 ^ 26)
    + 2 ^ 78 * (h.l2 / 2 ^ 26 ||| h.l3)) (k := 104) (by omega) 0 (h.l4 % 2 ^ 24)
  have hfull : h.l0 + 2 ^ 26 * h.l1 + 2 ^ 52 * h.l2
      = h.l0 + 2 ^ 26 * h.l1 + 2 ^ 52 * (h.l2 % 2 ^ 26) + 2 ^ 78 * (h.l2 / 2 ^ 26) := by omega
  simp only [Nat.mul_zero, Nat.add_zero, Nat.zero_or] at e1 e2 e4
  rw [hmask, hshift (by omega), hshift (by omega), hshift (by omega), hshift (by omega), e1, e2,
    hfull, e3, e4, composed]

/-- One bit joined with a number: it is lost when the number is odd. -/
lemma one_or (v : ℕ) : 1 ||| v = if v % 2 = 0 then v + 1 else v := by
  have hjoin : 1 ||| (v / 2) <<< 1 = 1 + 2 * (v / 2) := by
    simpa using or_shiftLeft (a := 1) (k := 1) (by decide) 0 (v / 2)
  have hshift : (v / 2) <<< 1 = 2 * (v / 2) := by rw [Nat.shiftLeft_eq]; ring
  split
  · next hv =>
      have heven : (v / 2) <<< 1 = v := by omega
      rw [heven] at hjoin
      omega
  · next hv =>
      have hodd : v = 1 ||| (v / 2) <<< 1 := by omega
      rw [hodd, ← Nat.or_assoc, Nat.or_self]

/-- What the code composes is the residue exactly when the accumulator has settled. -/
lemma composed_iff {h : Limbs} (hh : h.Carried) :
    composed h = h.value % prime % 2 ^ 128 ↔
      h.value < prime ∧ (h.l2 < 2 ^ 26 ∨ h.l3 % 2 = 0) := by
  obtain ⟨l0, l1, l2, l3, l4⟩ := h
  obtain ⟨h0, h1, h2, h3, h4⟩ := hh
  dsimp only at h0 h1 h2 h3 h4
  rw [value_eq, composed, prime]
  dsimp only
  have hl4 : l4 = l4 % 2 ^ 24 + 2 ^ 24 * (l4 / 2 ^ 24) := (Nat.mod_add_div _ _).symm
  have hl4lt : l4 % 2 ^ 24 < 2 ^ 24 := Nat.mod_lt _ (by decide)
  generalize hm : l4 % 2 ^ 24 = m at hl4 hl4lt ⊢
  generalize hq : l4 / 2 ^ 24 = q at hl4
  clear hm hq
  subst hl4
  rcases Nat.lt_or_ge (l0 + 2 ^ 26 * l1 + 2 ^ 52 * l2 + 2 ^ 78 * l3 + 2 ^ 104 * (m + 2 ^ 24 * q))
    (2 ^ 130 - 5) with hsmall | hlarge
  · rw [Nat.mod_eq_of_lt hsmall]
    rcases Nat.lt_or_ge l2 (2 ^ 26) with hlt | hge
    · -- no carry is pending
      rw [Nat.div_eq_of_lt hlt, Nat.zero_or, Nat.mod_eq_of_lt hlt]
      have hlow : (l0 + 2 ^ 26 * l1 + 2 ^ 52 * l2 + 2 ^ 78 * l3 + 2 ^ 104 * (m + 2 ^ 24 * q)) % 2 ^ 128
          = l0 + 2 ^ 26 * l1 + 2 ^ 52 * l2 + 2 ^ 78 * l3 + 2 ^ 104 * m := by omega
      rw [hlow]
      simp only [hsmall, hlt, true_or, and_self]
    · -- a carry of one is joined with the fourth limb
      obtain rfl : l2 = 2 ^ 26 := by omega
      rw [Nat.div_self (by decide), one_or, Nat.mod_self]
      split
      · next heven =>
          have hlow : (l0 + 2 ^ 26 * l1 + 2 ^ 52 * 2 ^ 26 + 2 ^ 78 * l3 + 2 ^ 104 * (m + 2 ^ 24 * q))
              % 2 ^ 128 = l0 + 2 ^ 26 * l1 + 2 ^ 52 * 0 + 2 ^ 78 * (l3 + 1) + 2 ^ 104 * m := by omega
          simp only [hlow, hsmall, heven, or_true, and_self]
      · next hodd =>
          have hlost (c : ℕ) : c ≠ (c + 2 ^ 78 + 2 ^ 128 * q) % 2 ^ 128 := by omega
          have hvalue : l0 + 2 ^ 26 * l1 + 2 ^ 52 * 2 ^ 26 + 2 ^ 78 * l3 + 2 ^ 104 * (m + 2 ^ 24 * q)
              = (l0 + 2 ^ 26 * l1 + 2 ^ 52 * 0 + 2 ^ 78 * l3 + 2 ^ 104 * m) + 2 ^ 78 + 2 ^ 128 * q := by
            ring
          rw [hvalue]
          simp only [hlost, hodd, lt_self_iff_false, or_self, and_false]
  · -- the residue is small, while the top limb is full
    have hmod : (l0 + 2 ^ 26 * l1 + 2 ^ 52 * l2 + 2 ^ 78 * l3 + 2 ^ 104 * (m + 2 ^ 24 * q))
        % (2 ^ 130 - 5) < 2 ^ 80 := by
      rw [Nat.mod_eq_sub_mod hlarge, Nat.mod_eq_of_lt (by omega)]
      omega
    have htop : m = 2 ^ 24 - 1 := by omega
    have hne : l0 + 2 ^ 26 * l1 + 2 ^ 52 * (l2 % 2 ^ 26) + 2 ^ 78 * (l2 / 2 ^ 26 ||| l3) + 2 ^ 104 * m
        ≠ (l0 + 2 ^ 26 * l1 + 2 ^ 52 * l2 + 2 ^ 78 * l3 + 2 ^ 104 * (m + 2 ^ 24 * q))
          % (2 ^ 130 - 5) % 2 ^ 128 := by
      rw [Nat.mod_eq_of_lt (hmod.trans (by decide))]
      subst htop
      refine (hmod.trans_le ?_).ne'
      calc 2 ^ 80 ≤ 2 ^ 104 * (2 ^ 24 - 1) := by decide
        _ ≤ _ := Nat.le_add_left _ _
    simp only [hne, hlarge.not_gt, false_and]

lemma composed_lt {h : Limbs} (hh : h.Carried) : composed h < 2 ^ 128 := by
  obtain ⟨h0, h1, h2, h3, h4⟩ := hh
  have htop : h.l2 / 2 ^ 26 ||| h.l3 < 2 ^ 26 := Nat.or_lt_two_pow (by omega) h3
  rw [composed]
  omega

lemma composed_settle_iff {p : ℕ} (hp : p < 2 ^ 166) :
    composed (settle p) = fold 130 5 p % prime % 2 ^ 128 ↔ Settled p := by
  have hl3 := settle_l3 p
  have hparity : p / 2 ^ 78 % 2 = (settle p).l3 % 2 := by omega
  rw [Settled, ← settle_l2_lt_iff p, hparity, ← value_settle p]
  exact composed_iff (carried_settle hp)

/-- The key `s` in one word. -/
lemma key_value (s : Vector UInt8 16) :
    leNat [s.get 0, s.get 1, s.get 2, s.get 3] ||| shlU128 (leNat [s.get 4, s.get 5, s.get 6, s.get 7]) 32
      ||| shlU128 (leNat [s.get 8, s.get 9, s.get 10, s.get 11]) 64
      ||| shlU128 (leNat [s.get 12, s.get 13, s.get 14, s.get 15]) 96 = leNat s.toList := by
  have hsplit : s.toList = [s.get 0, s.get 1, s.get 2, s.get 3] ++ ([s.get 4, s.get 5, s.get 6, s.get 7]
      ++ ([s.get 8, s.get 9, s.get 10, s.get 11] ++ [s.get 12, s.get 13, s.get 14, s.get 15])) := by
    rw [toList_vector]
    rfl
  have hlt (a b c d : UInt8) : leNat [a, b, c, d] < 2 ^ 32 :=
    (leNat_lt [a, b, c, d]).trans_eq (by norm_num)
  generalize hw0 : leNat [s.get 0, s.get 1, s.get 2, s.get 3] = w0
  generalize hw1 : leNat [s.get 4, s.get 5, s.get 6, s.get 7] = w1
  generalize hw2 : leNat [s.get 8, s.get 9, s.get 10, s.get 11] = w2
  generalize hw3 : leNat [s.get 12, s.get 13, s.get 14, s.get 15] = w3
  have h0 : w0 < 2 ^ 32 := hw0 ▸ hlt _ _ _ _
  have h1 : w1 < 2 ^ 32 := hw1 ▸ hlt _ _ _ _
  have h2 : w2 < 2 ^ 32 := hw2 ▸ hlt _ _ _ _
  have h3 : w3 < 2 ^ 32 := hw3 ▸ hlt _ _ _ _
  have hshift {a k : ℕ} (ha : a * 2 ^ k < 2 ^ 128) : shlU128 a k = a <<< k := by
    rw [shlU128, Nat.shiftLeft_eq, Nat.mod_eq_of_lt ha]
  have e1 := or_shiftLeft (a := w0) (k := 32) h0 0 w1
  have e2 := or_shiftLeft (a := w0 + 2 ^ 32 * w1) (k := 64) (by omega) 0 w2
  have e3 := or_shiftLeft (a := w0 + 2 ^ 32 * w1 + 2 ^ 64 * w2) (k := 96) (by omega) 0 w3
  simp only [Nat.mul_zero, Nat.add_zero, Nat.zero_or] at e1 e2 e3
  rw [hshift (by omega), hshift (by omega), hshift (by omega), e1, e2, e3, hsplit, leNat_append,
    leNat_append, leNat_append, hw0, hw1, hw2, hw3]
  simp only [List.length_cons, List.length_nil]
  ring

/-- The code computes without overflow, and what it returns. -/
lemma poly1305Mac_eq (r s : Vector UInt8 16) (msg : List UInt8) :
    lazyHorner (limbsOfKey r) (chunks msg.length msg) < 2 ^ 166 ∧
      poly1305Mac r s msg = ok (leBytes 16
        ((composed (settle (lazyHorner (limbsOfKey r) (chunks msg.length msg))) + leNat s.toList)
          % 2 ^ 128)) := by
  obtain ⟨q, rfl, hlt, hrun⟩ := accumulateChunks_eq (limbsOfKey_below r)
    (chunks msg.length msg) chunks_length (p := 0) (by decide)
  refine ⟨hlt, ?_⟩
  have hzero : settle 0 = ⟨0, 0, 0, 0, 0⟩ := by decide
  rw [hzero] at hrun
  rw [poly1305Mac]
  simp only [hrun, ok_bind, key_value]
  rw [composed_eq (carried_settle hlt)]
  rfl

/-- The residue that the lazy evaluation stands for is the evaluation. -/
lemma fold_lazyHorner_mod (r : Vector UInt8 16) (msg : List UInt8) :
    fold 130 5 (lazyHorner (limbsOfKey r) (chunks msg.length msg)) % prime
      = horner (leNat r.toList) (chunks msg.length msg) % prime :=
  (fold_modEq (by decide) _).trans (lazyHorner_modEq r chunks_length)

lemma poly1305Mac_ok_iff (r s : Vector UInt8 16) (msg : List UInt8) :
    poly1305Mac r s msg = ok (rfcTag r s msg) ↔
      Settled (lazyHorner (limbsOfKey r) (chunks msg.length msg)) := by
  obtain ⟨hlt, hmac⟩ := poly1305Mac_eq r s msg
  have hresidue := fold_lazyHorner_mod r msg
  generalize lazyHorner (limbsOfKey r) (chunks msg.length msg) = p at hlt hmac hresidue ⊢
  have hsum (a : ℕ) : a % 2 ^ 128 < 256 ^ 16 := (Nat.mod_lt _ (by decide)).trans_le (by decide)
  rw [← composed_settle_iff hlt, hmac, rfcTag, ← hresidue, Outcome.ok.injEq,
    leBytes_inj (hsum _) (hsum _)]
  constructor
  · intro h
    -- the key is added on both sides
    have hmod : composed (settle p) ≡ fold 130 5 p % prime [MOD 2 ^ 128] :=
      Nat.ModEq.add_right_cancel' _ h
    rw [← Nat.mod_eq_of_lt (composed_lt (carried_settle hlt))]
    exact hmod
  · intro h
    rw [h, Nat.mod_add_mod]

/-- No word overflows, and the tag is right exactly when the accumulator has settled. -/
theorem poly1305Mac_eq_rfcTag_iff (r s : Vector UInt8 16) (msg : List UInt8) :
    (∃ tag, poly1305Mac (clampR r) s msg = ok tag) ∧
      (poly1305Mac (clampR r) s msg = ok (rfcTag (clampR r) s msg) ↔
        Settled (lazyHorner (limbsOfKey (clampR r)) (chunks msg.length msg))) :=
  ⟨⟨_, (poly1305Mac_eq (clampR r) s msg).2⟩, poly1305Mac_ok_iff (clampR r) s msg⟩

/-- The accumulator stops at `2 ^ 130 - 2`, which the code does not reduce to three. -/
theorem poly1305Mac_unreduced :
    let r : Vector UInt8 16 := #v[2, 0, 0, 0, 0, 0, 0, 0, 0, 0, 0, 0, 0, 0, 0, 0]
    let s : Vector UInt8 16 := Vector.replicate 16 0
    let msg : List UInt8 := List.replicate 16 0xff
    poly1305Mac (clampR r) s msg = ok (0xfe :: List.replicate 15 0xff) ∧
      rfcTag (clampR r) s msg = 3 :: List.replicate 15 0 := by
  decide

/-- An accumulator that has not settled has a small residue, or one that is small below its
fourth limb. -/
lemma settled_of_residue {p : ℕ} (hp : p < 2 ^ 166) (hlarge : 2 ^ 80 ≤ fold 130 5 p % prime)
    (hlow : 2 ^ 42 ≤ fold 130 5 p % prime % 2 ^ 78) : Settled p := by
  have hcarried := carried_settle hp
  have hvalue := value_settle p
  rw [value_eq] at hvalue
  have hbelow : fold 130 5 p < prime := by
    obtain ⟨h0, h1, h2, h3, h4⟩ := hcarried
    by_contra hge
    rw [Nat.mod_eq_sub_mod (not_lt.mp hge), Nat.mod_eq_of_lt (by rw [prime] at *; omega)] at hlarge
    rw [prime] at hlarge hge
    omega
  refine ⟨hbelow, Or.inl ((settle_l2_lt_iff p).mp ?_)⟩
  by_contra hfull
  rw [Nat.mod_eq_of_lt hbelow, ← hvalue] at hlow
  -- a carry out of the third limb has passed through the second, which is small then
  obtain ⟨a, b, c, d, e, f, ha, hb, hc, hd, he, rfl⟩ := exists_parts p
  rw [settle_parts f ha hb hc hd he] at hlow hfull
  dsimp only at hlow hfull
  have hf : f < 2 ^ 36 := by omega
  have hcarry : (a + 5 * f) / 2 ^ 26 < 2 ^ 14 := by omega
  have hfirst : (a + 5 * f) % 2 ^ 26 < 2 ^ 26 := Nat.mod_lt _ (by decide)
  generalize (a + 5 * f) / 2 ^ 26 = n at hlow hfull hcarry
  generalize (a + 5 * f) % 2 ^ 26 = l0 at hlow hfirst
  have hthird : c + (b + n) / 2 ^ 26 = 2 ^ 26 := by omega
  have hsecond : (b + n) % 2 ^ 26 < 2 ^ 14 := by omega
  rw [hthird] at hlow
  omega

/-- The tag is right whenever the evaluation is not one of the small residues, nor small below
its fourth limb. -/
theorem poly1305Mac_of_horner (r s : Vector UInt8 16) (msg : List UInt8)
    (hlarge : 2 ^ 80 ≤ horner (leNat r.toList) (chunks msg.length msg) % prime)
    (hlow : 2 ^ 42 ≤ horner (leNat r.toList) (chunks msg.length msg) % prime % 2 ^ 78) :
    poly1305Mac r s msg = ok (rfcTag r s msg) := by
  rw [poly1305Mac_ok_iff]
  rw [← fold_lazyHorner_mod] at hlarge hlow
  exact settled_of_residue (poly1305Mac_eq r s msg).1 hlarge hlow

end RustBinary.Aead
