import RustBinary.Core.Slice
import RustBinary.Lib.Bits
import RustBinary.Lib.Spells

/-!
# Writing and reading bits

The writer of the bit-packed profile sets bits in a buffer of zeros, the least significant bit of a
value first, and the reader collects them again.  Both go bit by bit.
-/

namespace RustBinary.Bitpack

open Lib Lib.Act

/-- `bytes_for_bits`. -/
def bytesForBits (bits : ℕ) : ℕ := saturatingAdd bits 7 / 8

/-! ## The writer -/

structure BitWriter where
  output : List UInt8
  position : ℕ

namespace BitWriter

/-- `new` clears the output. -/
def new (output : List UInt8) : BitWriter := ⟨List.replicate output.length 0, 0⟩

/-- The loop of `write`: the low `width` bits of `value`, from the bit `start` on. -/
def putBits (value start : ℕ) : ℕ → List UInt8 → List UInt8
  | 0, output => output
  | bit + 1, output =>
      let source := UInt8.ofNat (value >>> bit &&& 1)
      let position := start + bit
      (putBits value start bit output).modify (position / 8) fun byte =>
        byte ||| source <<< UInt8.ofNat (position % 8)

def write (value width : ℕ) : Act BitWriter Error Unit := do
  if 128 < width then throw (.bitPacking "field width exceeds 128 bits")
  else if width < 128 ∧ value >>> width ≠ 0 then
    throw (.bitPacking "field value does not fit declared width")
  else do
    let writer ← get
    let stop ← okOr (checkedAdd writer.position width) (.bitPacking "bit position overflow")
    if saturatingMul writer.output.length 8 < stop then
      throw (.bufferTooSmall (bytesForBits stop) writer.output.length)
    else
      -- every index of the loop is below `stop`
      modify fun writer => ⟨putBits value writer.position width writer.output, stop⟩

def bitsWritten (writer : BitWriter) : ℕ := writer.position

def bytesWritten (writer : BitWriter) : ℕ := bytesForBits writer.position

end BitWriter

/-! ## The reader -/

structure BitReader where
  input : Slice 1 UInt8
  position : ℕ

namespace BitReader

def new (input : Slice 1 UInt8) : BitReader := ⟨input, 0⟩

/-- The loop of `read`: `width` bits, from the bit `start` on. -/
def getBits (input : List UInt8) (start : ℕ) : ℕ → ℕ
  | 0 => 0
  | bit + 1 =>
      let position := start + bit
      let byte := input[position / 8]?.getD 0
      getBits input start bit ||| (byte >>> UInt8.ofNat (position % 8) &&& 1).toNat <<< bit

def read (width : ℕ) : Act BitReader Error ℕ := do
  if 128 < width then throw (.bitPacking "field width exceeds 128 bits")
  else do
    let reader ← get
    let stop ← okOr (checkedAdd reader.position width) (.bitPacking "bit position overflow")
    if saturatingMul reader.input.elems.length 8 < stop then throw .unexpectedEnd
    else
      modify fun reader => { reader with position := stop }
      -- every index of the loop is below `stop`
      pure (getBits reader.input.elems reader.position width)

def validateEnd (trailing : TrailingBytes) : Act BitReader Error Unit := do
  let reader ← get
  let used := bytesForBits reader.position
  if reader.position % 8 ≠ 0 ∧ used ≠ 0 then
    let last ← call (Outcome.orPanic reader.input.elems[used - 1]?)
    if last >>> UInt8.ofNat (reader.position % 8) ≠ 0 then
      throw (.bitPacking "non-zero bit padding")
    else pure ()
  else pure ()
  if trailing = .reject ∧ reader.input.elems.length ≠ used then
    throw (.trailingBytes (reader.input.elems.length - used))
  else pure ()

end BitReader

/-! ## What they do -/

lemma shiftRight_and_one (n i : ℕ) : n >>> i &&& 1 = (n.testBit i).toNat := by
  rw [Nat.and_one_is_mod, Nat.shiftRight_eq_div_pow, Nat.testBit_eq_decide_div_mod_eq]
  rcases Nat.mod_two_eq_zero_or_one (n / 2 ^ i) with h | h <;> rw [h] <;> rfl

/-- One bit of the loop. -/
lemma unpack_modify {bs : List UInt8} {p : ℕ} (b : Bool) (hp : (unpack bs)[p]? = some false) :
    unpack (bs.modify (p / 8) fun byte =>
      byte ||| UInt8.ofNat b.toNat <<< UInt8.ofNat (p % 8)) = (unpack bs).set p b := by
  induction bs generalizing p with
  | nil => simp at hp
  | cons byte bs ih =>
      rw [unpack_cons] at hp ⊢
      by_cases hlt : p < 8
      · have hlen : p < (toBits 8 byte.toNat).length := by rwa [length_toBits]
        rw [Nat.div_eq_of_lt hlt, Nat.mod_eq_of_lt hlt, List.modify_zero_cons, unpack_cons,
          List.set_append_left _ _ hlen]
        rw [List.getElem?_append_left hlen] at hp
        congr 1
        cases b with
        | false =>
            rw [show UInt8.ofNat false.toNat <<< UInt8.ofNat p = 0 by simp, UInt8.or_zero]
            refine (List.ext_getElem? fun i => ?_).symm
            rw [List.getElem?_set]
            split
            · next heq =>
                subst heq
                exact hp.symm
            · rfl
        | true =>
            have hbyte : (byte ||| UInt8.ofNat true.toNat <<< UInt8.ofNat p).toNat =
                byte.toNat ||| 2 ^ p := by
              have hpow : 2 ^ p < 2 ^ 8 := Nat.pow_lt_pow_right (by decide) hlt
              have hshift : (UInt8.ofNat p).toNat % 8 = p := by
                rw [UInt8.toNat_ofNat']
                omega
              rw [UInt8.toNat_or, UInt8.toNat_shiftLeft, hshift,
                show (UInt8.ofNat true.toNat).toNat = 1 from rfl, Nat.shiftLeft_eq, one_mul,
                Nat.mod_eq_of_lt hpow]
            rw [hbyte, toBits_or_pow]
      · obtain ⟨q, rfl⟩ := Nat.exists_eq_add_of_le (Nat.not_lt.mp hlt)
        rw [List.getElem?_append_right (by rw [length_toBits]; omega), length_toBits,
          Nat.add_sub_cancel_left] at hp
        rw [Nat.add_mod_left, Nat.add_div_left q (by decide), List.modify_succ_cons, unpack_cons,
          ih hp, List.set_append_right _ _ (by rw [length_toBits]; omega), length_toBits,
          Nat.add_sub_cancel_left]

/-- The loop of `write` puts the bits of the value in the place of zeros. -/
lemma unpack_putBits {output : List UInt8} {written : List Bool} {room : ℕ} (value : ℕ) {width : ℕ}
    (h : unpack output = written ++ List.replicate room false) (hroom : width ≤ room) :
    unpack (BitWriter.putBits value written.length width output) =
      written ++ toBits width value ++ List.replicate (room - width) false := by
  induction width with
  | zero => rw [BitWriter.putBits, toBits, List.append_nil, Nat.sub_zero, h]
  | succ bit ih =>
      have ih := ih (by omega)
      have hlen : (written ++ toBits bit value).length = written.length + bit := by
        rw [List.length_append, length_toBits]
      have hrest : List.replicate (room - bit) false =
          false :: List.replicate (room - (bit + 1)) false := by
        rw [← List.replicate_succ, show room - (bit + 1) + 1 = room - bit by omega]
      have hget : (unpack (BitWriter.putBits value written.length bit output))[written.length + bit]?
          = some false := by
        rw [ih, hrest, List.getElem?_append_right (by omega), hlen, Nat.sub_self]
        rfl
      rw [BitWriter.putBits]
      rw [shiftRight_and_one, unpack_modify _ hget, ih, hrest,
        List.set_append_right _ _ (by omega), hlen, Nat.sub_self, List.set_cons_zero, toBits_add bit 1,
        toBits, toBits, List.append_assoc, List.append_assoc, List.append_assoc]
      congr 4
      rw [Nat.testBit_eq_decide_div_mod_eq]
      rfl

/-- The loop of `read` collects bits. -/
lemma getBits_eq {input : List UInt8} {start width : ℕ}
    (h : start + width ≤ 8 * input.length) :
    BitReader.getBits input start width = ofBits (((unpack input).drop start).take width) := by
  induction width with
  | zero => rw [List.take_zero]; rfl
  | succ bit ih =>
      have hbit : start + bit < (unpack input).length := by
        rw [length_unpack]
        omega
      have hbyte : (start + bit) / 8 < input.length := by omega
      have hget := getElem?_unpack input (start + bit)
      rw [List.getElem?_eq_getElem hbyte, Option.map_some, List.getElem?_eq_getElem hbit,
        Option.some.injEq] at hget
      have hsource : ((input[(start + bit) / 8]?.getD 0) >>> UInt8.ofNat ((start + bit) % 8) &&&
          1).toNat = (unpack input)[start + bit].toNat := by
        have hmod : (UInt8.ofNat ((start + bit) % 8)).toNat % 8 = (start + bit) % 8 := by
          rw [UInt8.toNat_ofNat']
          omega
        rw [List.getElem?_eq_getElem hbyte, Option.getD_some, UInt8.toNat_and,
          UInt8.toNat_shiftRight, hmod, show (1 : UInt8).toNat = 1 from rfl, shiftRight_and_one,
          hget]
      have htake : ((unpack input).drop start).take (bit + 1) =
          ((unpack input).drop start).take bit ++ [(unpack input)[start + bit]] := by
        rw [List.take_add_one, List.getElem?_drop, List.getElem?_eq_getElem hbit]
        rfl
      have hlen : (((unpack input).drop start).take bit).length = bit := by
        rw [List.length_take, List.length_drop]
        omega
      have hlt : ofBits (((unpack input).drop start).take bit) < 2 ^ bit := by
        have := ofBits_lt (((unpack input).drop start).take bit)
        rwa [hlen] at this
      rw [BitReader.getBits]
      rw [ih (by omega), hsource, htake, ofBits_append, hlen, Nat.shiftLeft_eq, Nat.lor_comm,
        Nat.mul_comm, ← Nat.two_pow_add_eq_or_of_lt hlt, Nat.add_comm]
      simp [ofBits]

instance : Tape BitReader Bool where
  Here s bits := Window (unpack s.input.elems) (some u64Max) s.position bits
  advance s n := { s with position := s.position + n }
  advance_zero _ := rfl
  advance_advance _ _ _ := by simp only [Nat.add_assoc]
  here_append _ _ _ := window_append

/-- Every reader. -/
def Always (_ : BitReader) : Prop := True

lemma steady_always : Steady Always := fun _ _ _ => trivial

lemma spells_read (width : ℕ) :
    Spells Always (BitReader.read width) fun n bits =>
      width ≤ 128 ∧ n < 2 ^ width ∧ bits = toBits width n := by
  intro s _ _ n t
  rw [BitReader.read]
  by_cases hwidth : 128 < width
  · rw [if_pos hwidth]
    constructor
    · intro h
      simp at h
    · rintro ⟨_, ⟨hle, -⟩, -⟩
      omega
  rw [if_neg hwidth, get_bind_run]
  have hcapacity : ∀ stop, stop ≤ u64Max →
      (¬ saturatingMul s.input.elems.length 8 < stop ↔ stop ≤ 8 * s.input.elems.length) := by
    intro stop hstop
    rw [saturatingMul, not_lt, le_min_iff, Nat.mul_comm]
    exact ⟨fun h => h.1, fun h => ⟨h, hstop⟩⟩
  constructor
  · intro h
    obtain ⟨stop, u, hstop, h⟩ := bind_eq_ok.mp h
    obtain ⟨hstop, hu⟩ := okOr_eq_ok.mp hstop
    rw [hu] at h
    rw [checkedAdd, Option.ite_none_right_eq_some, Option.some.injEq] at hstop
    obtain ⟨hmax, rfl⟩ := hstop
    split at h
    · simp at h
    · next hroom =>
        have hend := (hcapacity _ hmax).mp hroom
        rw [modify_bind_run, pure_run, Prod.mk.injEq, Outcome.ok.injEq] at h
        obtain ⟨rfl, rfl⟩ := h
        have hlen : (((unpack s.input.elems).drop s.position).take width).length = width := by
          rw [List.length_take, List.length_drop, length_unpack]
          omega
        have hlt := ofBits_lt (((unpack s.input.elems).drop s.position).take width)
        have hbits := toBits_ofBits (((unpack s.input.elems).drop s.position).take width)
        rw [hlen] at hlt hbits
        rw [getBits_eq hend]
        refine ⟨_, ⟨Nat.le_of_not_lt hwidth, hlt, hbits.symm⟩, ⟨slice_eq_some.mpr ⟨?_, ?_, ?_⟩, ?_⟩,
          ?_⟩
        · omega
        · rw [hlen, length_unpack]
          exact hend
        · rw [hlen, Nat.add_sub_cancel_left]
        · intro limit hlimit
          cases hlimit
          rw [hlen]
          exact hmax
        · rw [hlen]
          rfl
  · rintro ⟨_, ⟨-, hlt, rfl⟩, ⟨hslice, hmax⟩, rfl⟩
    obtain ⟨-, hend, htake⟩ := slice_eq_some.mp hslice
    rw [length_toBits] at hend htake
    rw [length_unpack] at hend
    have hmax := hmax _ rfl
    rw [length_toBits] at hmax ⊢
    rw [Nat.add_sub_cancel_left] at htake
    rw [checkedAdd, if_pos hmax, okOr_some, pure_bind_run, if_neg ((hcapacity _ hmax).mpr hend),
      modify_bind_run, pure_run, getBits_eq hend, htake, ofBits_toBits hlt]
    rfl

lemma bytesForBits_eq {n : ℕ} (h : n + 7 ≤ u64Max) : bytesForBits n = (n + 7) / 8 := by
  rw [bytesForBits, saturatingAdd, min_eq_left h]

/-- The end is valid when zeros fill the last byte and no byte is left. -/
lemma validateEnd_eq_ok {s t : BitReader} (hend : s.position ≤ 8 * s.input.elems.length)
    (hmax : s.position + 7 ≤ u64Max) :
    BitReader.validateEnd .reject s = (.ok (), t) ↔
      (s.input.elems.length = (s.position + 7) / 8 ∧
        (unpack s.input.elems).drop s.position =
          List.replicate (8 * s.input.elems.length - s.position) false) ∧ t = s := by
  have hused := bytesForBits_eq hmax
  have hlength : ∀ t, ((if TrailingBytes.reject = .reject ∧
      s.input.elems.length ≠ (s.position + 7) / 8 then
        throw (.trailingBytes (s.input.elems.length - (s.position + 7) / 8))
      else Pure.pure () : Act BitReader Error Unit) s = (.ok (), t)) ↔
      s.input.elems.length = (s.position + 7) / 8 ∧ t = s := by
    intro t
    split
    · next h =>
        rw [throw_run]
        constructor
        · intro h
          simp at h
        · intro h'
          exact absurd h'.1 h.2
    · next h =>
        rw [pure_run, Prod.mk.injEq]
        constructor
        · rintro ⟨-, rfl⟩
          exact ⟨not_not.mp fun hne => h ⟨rfl, hne⟩, rfl⟩
        · rintro ⟨-, rfl⟩
          exact ⟨rfl, rfl⟩
  rw [BitReader.validateEnd, get_bind_run]
  dsimp only
  rw [hused]
  by_cases hr : s.position % 8 = 0
  · rw [if_neg (by omega), hlength]
    constructor
    · rintro ⟨hlen, rfl⟩
      refine ⟨⟨hlen, ?_⟩, rfl⟩
      rw [show 8 * t.input.elems.length - t.position = 0 by omega, List.replicate_zero]
      exact List.drop_eq_nil_of_le (by rw [length_unpack]; omega)
    · rintro ⟨⟨hlen, -⟩, rfl⟩
      exact ⟨hlen, rfl⟩
  · have hlast : (s.position + 7) / 8 - 1 < s.input.elems.length := by omega
    rw [if_pos (by omega), List.getElem?_eq_getElem hlast,
      bind_of_ok (show call (Outcome.orPanic (some _)) s = (.ok _, s) from rfl)]
    -- the last byte is the one with the last bits when no byte is behind it
    have hpadding : s.input.elems.length = (s.position + 7) / 8 →
        (s.input.elems[(s.position + 7) / 8 - 1] >>> UInt8.ofNat (s.position % 8) = 0 ↔
          (unpack s.input.elems).drop s.position =
            List.replicate (8 * s.input.elems.length - s.position) false) := by
      intro hlen
      refine getLast_shiftRight_eq_zero_iff hr hlen ?_
      rw [List.getLast?_eq_getElem?, hlen, List.getElem?_eq_getElem hlast]
    by_cases hshift :
        s.input.elems[(s.position + 7) / 8 - 1] >>> UInt8.ofNat (s.position % 8) = 0
    · rw [if_neg (not_not.mpr hshift), hlength]
      constructor
      · rintro ⟨hlen, rfl⟩
        exact ⟨⟨hlen, (hpadding hlen).mp hshift⟩, rfl⟩
      · rintro ⟨⟨hlen, -⟩, rfl⟩
        exact ⟨hlen, rfl⟩
    · rw [if_pos hshift, throw_bind_run]
      constructor
      · intro h
        simp at h
      · rintro ⟨⟨hlen, hdrop⟩, -⟩
        exact absurd ((hpadding hlen).mpr hdrop) hshift

/-- A writer that has written `bits` and has `room` bits left. -/
structure Holds (w : BitWriter) (bits : List Bool) (room : ℕ) : Prop where
  position_eq : w.position = bits.length
  unpack_eq : unpack w.output = bits ++ List.replicate room false

lemma holds_new (output : List UInt8) : Holds (.new output) [] (8 * output.length) := by
  refine ⟨rfl, ?_⟩
  have hzero : unpack (List.replicate output.length 0) =
      List.replicate (8 * output.length) false := by
    have h := toBits_ofBits (unpack (List.replicate output.length 0))
    rwa [length_unpack, List.length_replicate, ofBits_unpack, leNat_replicate_zero, toBits_zero,
      eq_comm] at h
  exact hzero

/-- `m` writes `bits` where there is room for them. -/
def Packs (m : Act BitWriter Error Unit) (bits : List Bool) : Prop :=
  ∀ w written room, Holds w written room → bits.length ≤ room →
    written.length + bits.length ≤ u64Max →
      ∃ w', m w = (.ok (), w') ∧ Holds w' (written ++ bits) (room - bits.length)

lemma Packs.pure : Packs (Pure.pure ()) [] := by
  intro w written room h _ _
  exact ⟨w, rfl, by rwa [List.append_nil, List.length_nil, Nat.sub_zero]⟩

lemma Packs.bind {m n : Act BitWriter Error Unit} {xs ys : List Bool} (hm : Packs m xs)
    (hn : Packs n ys) : Packs (m >>= fun _ => n) (xs ++ ys) := by
  intro w written room h hroom hmax
  rw [List.length_append] at hroom hmax
  obtain ⟨v, hv, hholds⟩ := hm w written room h (by omega) (by omega)
  obtain ⟨u, hu, hholds⟩ := hn v _ _ hholds (by omega) (by rw [List.length_append]; omega)
  refine ⟨u, by rw [bind_of_ok hv, hu], ?_⟩
  rwa [← List.append_assoc, List.length_append, ← Nat.sub_sub]

lemma packs_write {value width : ℕ} (hwidth : width ≤ 128) (hvalue : value < 2 ^ width) :
    Packs (BitWriter.write value width) (toBits width value) := by
  intro w written room h hroom hmax
  rw [length_toBits] at hroom hmax
  have hlen := congrArg List.length h.unpack_eq
  rw [length_unpack, List.length_append, List.length_replicate] at hlen
  have hcapacity : ¬ saturatingMul w.output.length 8 < written.length + width := by
    rw [saturatingMul, not_lt, le_min_iff]
    omega
  refine ⟨⟨BitWriter.putBits value w.position width w.output, w.position + width⟩, ?_, ?_, ?_⟩
  · have hshift : ¬ (width < 128 ∧ value >>> width ≠ 0) := by
      rw [Nat.shiftRight_eq_div_pow, Nat.div_eq_of_lt hvalue]
      simp
    rw [BitWriter.write, if_neg (by omega), if_neg hshift, get_bind_run, h.position_eq, checkedAdd,
      if_pos hmax, okOr_some, pure_bind_run, if_neg hcapacity, modify_run, h.position_eq]
  · rw [List.length_append, length_toBits, h.position_eq]
  · rw [h.position_eq, length_toBits]
    exact unpack_putBits value h.unpack_eq hroom

end RustBinary.Bitpack
