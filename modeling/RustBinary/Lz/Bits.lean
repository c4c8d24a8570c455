import RustBinary.Lz.Codec
import RustBinary.Lib.Bits
import RustBinary.Lib.Spells

/-!
# The bit stream, written and read

The writer stands for the bits of its bytes and of the bits that wait in its buffer, so that each
write appends to one bit string; the reader reads the bits of its bytes.
-/

namespace RustBinary.Lz

open Lib Lib.Act Lib.Tape

/-! ## The writer -/

namespace BitWriter

/-- What has been written so far. -/
structure Stands (w : BitWriter) (bits : List Bool) : Prop where
  bits_eq : unpack w.buffer ++ toBits w.bitCount w.bitBuffer.toNat = bits
  lt : w.bitBuffer.toNat < 2 ^ w.bitCount
  count_le : w.bitCount ≤ 64

variable {w : BitWriter} {bits : List Bool}

lemma toNat_lowByte (n : UInt64) : (n &&& 0xff).toUInt8.toNat = n.toNat % 2 ^ 8 := by
  rw [UInt64.toNat_toUInt8, UInt64.toNat_and, show (0xff : UInt64).toNat = 2 ^ 8 - 1 from rfl,
    Nat.and_two_pow_sub_one_eq_mod, Nat.mod_mod]

/-- A byte that moves from the buffer to the bytes stands where it stood. -/
lemma unpack_lowByte (n : UInt64) : unpack [(n &&& 0xff).toUInt8] = toBits 8 n.toNat := by
  rw [unpack_cons, unpack_nil, List.append_nil, toNat_lowByte, toBits_mod]

lemma Stands.flushBytes (h : w.Stands bits) {bytes : ℕ} (hbytes : 8 * bytes ≤ w.bitCount) :
    (w.flushBytes bytes).Stands bits ∧ (w.flushBytes bytes).bitCount = w.bitCount - 8 * bytes := by
  induction bytes generalizing w with
  | zero => exact ⟨h, rfl⟩
  | succ bytes ih =>
      have hshift : (w.bitBuffer >>> 8).toNat = w.bitBuffer.toNat / 2 ^ 8 := by
        rw [UInt64.toNat_shiftRight, Nat.shiftRight_eq_div_pow]
        rfl
      have hcount : w.bitCount = 8 + (w.bitCount - 8) := by omega
      have hstep : Stands ⟨w.buffer ++ [(w.bitBuffer &&& 0xff).toUInt8], w.bitBuffer >>> 8,
          w.bitCount - 8⟩ bits := by
        refine ⟨?_, ?_, (Nat.sub_le _ _).trans h.count_le⟩
        · rw [← h.bits_eq, unpack_append, unpack_lowByte, hshift, List.append_assoc]
          have hsplit := toBits_add 8 (w.bitCount - 8) w.bitBuffer.toNat
          rw [← hcount] at hsplit
          rw [hsplit]
        · show (w.bitBuffer >>> 8).toNat < 2 ^ (w.bitCount - 8)
          rw [hshift, Nat.div_lt_iff_lt_mul (by decide), ← pow_add, Nat.add_comm, ← hcount]
          exact h.lt
      obtain ⟨hstands, hrest⟩ := ih hstep (by show 8 * bytes ≤ w.bitCount - 8; omega)
      refine ⟨hstands, ?_⟩
      rw [BitWriter.flushBytes, hrest]
      show w.bitCount - 8 - 8 * bytes = _
      omega

lemma Stands.flush (h : w.Stands bits) : w.flush.Stands bits ∧ w.flush.bitCount < 8 := by
  obtain ⟨hstands, hcount⟩ := h.flushBytes (Nat.mul_div_le w.bitCount 8)
  refine ⟨hstands, ?_⟩
  rw [BitWriter.flush, hcount]
  omega

lemma Stands.ensureCapacity (h : w.Stands bits) {needed : ℕ} (hneeded : needed ≤ 32) :
    (w.ensureCapacity needed).Stands bits ∧
      (w.ensureCapacity needed).bitCount + needed ≤ 64 := by
  rw [BitWriter.ensureCapacity]
  split
  · obtain ⟨hstands, hcount⟩ := h.flush
    exact ⟨hstands, by omega⟩
  · exact ⟨h, by omega⟩

/-- Bits that are set above those in the buffer come behind them. -/
lemma Stands.put (h : w.Stands bits) (value : UInt64) {count : ℕ} (hpos : 0 < count)
    (hvalue : value.toNat < 2 ^ count) (hcount : w.bitCount + count ≤ 64) :
    Stands { w with
      bitBuffer := w.bitBuffer ||| value <<< UInt64.ofNat w.bitCount
      bitCount := w.bitCount + count } (bits ++ toBits count value.toNat) := by
  have hshift : (UInt64.ofNat w.bitCount).toNat % 64 = w.bitCount := by
    rw [UInt64.toNat_ofNat']
    omega
  have hlt : 2 ^ w.bitCount * value.toNat + w.bitBuffer.toNat < 2 ^ (w.bitCount + count) := by
    have hmul : 2 ^ w.bitCount * (value.toNat + 1) ≤ 2 ^ w.bitCount * 2 ^ count :=
      Nat.mul_le_mul_left _ hvalue
    have hbuffer := h.lt
    rw [Nat.mul_add, Nat.mul_one] at hmul
    rw [pow_add]
    omega
  have hword : 2 ^ (w.bitCount + count) ≤ 2 ^ 64 := Nat.pow_le_pow_right (by decide) hcount
  have hvalue64 : value.toNat <<< w.bitCount % 2 ^ 64 = 2 ^ w.bitCount * value.toNat := by
    rw [Nat.shiftLeft_eq, Nat.mul_comm, Nat.mod_eq_of_lt (by omega)]
  have hnat : (w.bitBuffer ||| value <<< UInt64.ofNat w.bitCount).toNat =
      2 ^ w.bitCount * value.toNat + w.bitBuffer.toNat := by
    rw [UInt64.toNat_or, UInt64.toNat_shiftLeft, hshift, hvalue64, Nat.lor_comm,
      ← Nat.two_pow_add_eq_or_of_lt h.lt]
  refine ⟨?_, ?_, hcount⟩
  · dsimp only
    rw [hnat, toBits_add, ← h.bits_eq, List.append_assoc, Nat.mul_add_div (Nat.two_pow_pos _),
      Nat.div_eq_of_lt h.lt, Nat.add_zero]
    congr 2
    rw [← toBits_mod, Nat.mul_add_mod, Nat.mod_eq_of_lt h.lt]
  · dsimp only
    rw [hnat]
    exact hlt

lemma Stands.writeBit (h : w.Stands bits) (value : Bool) :
    (w.writeBit value).Stands (bits ++ [value]) := by
  obtain ⟨hready, hroom⟩ := h.ensureCapacity (show 1 ≤ 32 by decide)
  have hvalue : value.toUInt64.toNat = value.toNat := by cases value <;> rfl
  have hput := hready.put value.toUInt64 Nat.one_pos
    (by rw [hvalue]; exact Bool.toNat_lt _) hroom
  have hbits : toBits 1 value.toUInt64.toNat = [value] := by cases value <;> rfl
  rw [hbits] at hput
  rw [BitWriter.writeBit]
  dsimp only
  split
  · exact hput.flush.1
  · exact hput

lemma Stands.writeBits (h : w.Stands bits) (value : UInt32) {count : ℕ} (hpos : 0 < count)
    (hcount : count ≤ 32) (hvalue : value.toNat < 2 ^ count) :
    (w.writeBits value count).Stands (bits ++ toBits count value.toNat) := by
  obtain ⟨hready, hroom⟩ := h.ensureCapacity hcount
  have hput := hready.put value.toUInt64 hpos
    (by rw [UInt32.toNat_toUInt64]; exact hvalue) hroom
  rw [UInt32.toNat_toUInt64] at hput
  rw [BitWriter.writeBits]
  dsimp only
  split
  · exact hput.flush.1
  · exact hput

/-- The length in front, where the stream has only whole bytes. -/
lemma stands_writeU32 (value : UInt32) : (new.writeU32 value).Stands (toBits 32 value.toNat) := by
  refine ⟨?_, Nat.one_pos, Nat.zero_le _⟩
  have hlen : (unpack (leBytes 4 value.toNat)).length = 32 := by
    rw [length_unpack, length_leBytes]
  have hbits := toBits_ofBits (unpack (leBytes 4 value.toNat))
  rw [hlen, ofBits_unpack, leNat_leBytes value.toNat_lt] at hbits
  exact (List.append_nil _).trans hbits.symm

/-- Zeros fill the last byte. -/
lemma Stands.unpack_finish (h : w.Stands bits) :
    ∃ n < 8, unpack w.finish = bits ++ List.replicate n false := by
  obtain ⟨hstands, hcount⟩ := h.flush
  have hbits := hstands.bits_eq
  rw [finish]
  split
  · refine ⟨8 - w.flush.bitCount, by omega, ?_⟩
    have hsplit := toBits_add w.flush.bitCount (8 - w.flush.bitCount) w.flush.bitBuffer.toNat
    rw [Nat.add_sub_cancel' hcount.le, Nat.div_eq_of_lt hstands.lt, toBits_zero] at hsplit
    rw [unpack_append, unpack_lowByte, hsplit, ← List.append_assoc, hbits]
  · next hzero =>
      refine ⟨0, by decide, ?_⟩
      rw [show w.flush.bitCount = 0 by omega, toBits, List.append_nil] at hbits
      rw [hbits, List.replicate_zero, List.append_nil]

/-- The bytes of the stream are as many as its bits need. -/
lemma Stands.length_finish (h : w.Stands bits) : w.finish.length = (bits.length + 7) / 8 := by
  obtain ⟨n, hn, hbits⟩ := h.unpack_finish
  have hlen := congrArg List.length hbits
  rw [length_unpack, List.length_append, List.length_replicate] at hlen
  omega

end BitWriter

/-! ## The reader -/

namespace BitReader

/-- The number of bits read. -/
def position (s : BitReader) : ℕ := 8 * s.bytePos + s.bitPos

/-- The reader at a position. -/
def seek (bytes : List UInt8) (position : ℕ) : BitReader :=
  ⟨bytes, position / 8, position % 8, Nat.mod_lt _ (by decide)⟩

lemma seek_position (s : BitReader) : seek s.bytes s.position = s := by
  obtain ⟨bytes, bytePos, bitPos, hlt⟩ := s
  rw [seek]
  dsimp only [position]
  congr 1
  · omega
  · omega

@[simp] lemma position_seek (bytes : List UInt8) (p : ℕ) : (seek bytes p).position = p :=
  Nat.div_add_mod p 8

instance : Tape BitReader Bool where
  Here s bits := Window (unpack s.bytes) none s.position bits
  advance s n := seek s.bytes (s.position + n)
  advance_zero s := s.seek_position
  advance_advance s m n := by
    show seek s.bytes ((seek s.bytes (s.position + m)).position + n) = _
    rw [position_seek, Nat.add_assoc]
  here_append s xs ys := by
    show Window _ _ _ _ ↔ _ ∧ Window (unpack s.bytes) none
      (seek s.bytes (s.position + xs.length)).position ys
    rw [position_seek]
    exact window_append

lemma next_eq (s : BitReader) : s.next = advance s 1 := by
  obtain ⟨bytes, bytePos, bitPos, hlt⟩ := s
  show next _ = seek bytes (8 * bytePos + bitPos + 1)
  rw [next, seek]
  dsimp only
  split
  · congr 1
    · omega
    · omega
  · congr 1
    · omega
    · omega

lemma reads_readBit (b : Bool) : Reads readBit b [b] := by
  rintro s ⟨hslice, -⟩
  rw [List.length_singleton, slice_one, getElem?_unpack, Option.map_map,
    Option.map_eq_some_iff] at hslice
  obtain ⟨byte, hbyte, hbit⟩ := hslice
  have hlt := s.bitPos_lt
  have hdiv : s.position / 8 = s.bytePos := by
    rw [position]
    omega
  have hmod : s.position % 8 = s.bitPos := by
    rw [position]
    omega
  rw [hdiv] at hbyte
  rw [hmod] at hbit
  have hshift : (UInt8.ofNat s.bitPos).toNat % 8 = s.bitPos := by
    rw [UInt8.toNat_ofNat']
    omega
  have hread : (byte >>> UInt8.ofNat s.bitPos &&& 1 != 0) = b := by
    have hbit : byte.toNat.testBit s.bitPos = b := List.singleton_inj.mp hbit
    rw [← hbit, Bool.eq_iff_iff, bne_iff_ne, ne_eq, ← UInt8.toNat_inj,
      UInt8.toNat_and, UInt8.toNat_shiftRight, hshift, show (1 : UInt8).toNat = 1 from rfl,
      Nat.and_one_is_mod, Nat.shiftRight_eq_div_pow, Nat.testBit_eq_decide_div_mod_eq,
      show (0 : UInt8).toNat = 0 from rfl, decide_eq_true_iff]
    omega
  rw [readBit, get_bind_run, hbyte, okOr_some, pure_bind_run, modify_bind_run, pure_run, hread,
    next_eq]
  rfl

/-- Bits that are set above a word. -/
lemma toNat_or_shiftLeft {x y : UInt32} {k : ℕ} (hx : x.toNat < 2 ^ k) (hk : k < 32)
    (hy : 2 ^ k * y.toNat < 2 ^ 32) :
    (x ||| y <<< UInt32.ofNat k).toNat = x.toNat + 2 ^ k * y.toNat := by
  have hshift : (UInt32.ofNat k).toNat % 32 = k := by
    rw [UInt32.toNat_ofNat']
    omega
  rw [UInt32.toNat_or, UInt32.toNat_shiftLeft, hshift, Nat.shiftLeft_eq, Nat.mul_comm y.toNat,
    Nat.mod_eq_of_lt hy, Nat.lor_comm, ← Nat.two_pow_add_eq_or_of_lt hx, Nat.add_comm]

lemma reads_readBits (v : ℕ) {count : ℕ} (hcount : count ≤ 32) :
    Reads (readBits count) (UInt32.ofNat (v % 2 ^ count)) (toBits count v) := by
  induction count with
  | zero =>
      rw [pow_zero, Nat.mod_one]
      exact Reads.pure 0
  | succ i ih =>
      have hlow : v % 2 ^ i < 2 ^ i := Nat.mod_lt _ (Nat.two_pow_pos i)
      have hpow : 2 ^ (i + 1) ≤ 2 ^ 32 := Nat.pow_le_pow_right (by decide) hcount
      have hbit : (v / 2 ^ i % 2 == 1).toUInt32.toNat = v / 2 ^ i % 2 := by
        rcases Nat.mod_two_eq_zero_or_one (v / 2 ^ i) with h | h <;> rw [h] <;> rfl
      have hmul : 2 ^ i * (v / 2 ^ i % 2) ≤ 2 ^ i * 1 := Nat.mul_le_mul_left _ (by omega)
      rw [pow_succ] at hpow
      have hword : UInt32.ofNat (v % 2 ^ i) ||| (v / 2 ^ i % 2 == 1).toUInt32 <<< UInt32.ofNat i =
          UInt32.ofNat (v % 2 ^ (i + 1)) := by
        have hnat : (UInt32.ofNat (v % 2 ^ i)).toNat = v % 2 ^ i := by
          rw [UInt32.toNat_ofNat', Nat.mod_eq_of_lt (by omega)]
        have hmod := Nat.mod_lt v (Nat.two_pow_pos (i + 1))
        rw [pow_succ] at hmod
        have hmod : v % (2 ^ i * 2) < 2 ^ 32 := lt_of_lt_of_le hmod hpow
        rw [← UInt32.toNat_inj, toNat_or_shiftLeft (by rw [hnat]; exact hlow) hcount
          (by rw [hbit]; omega), hnat, hbit, UInt32.toNat_ofNat', pow_succ,
          Nat.mod_eq_of_lt hmod, Nat.mod_mul]
      rw [← hword, toBits_add i 1]
      exact (ih (by omega)).bind (reads_readBit (v / 2 ^ i % 2 == 1)).bind_pure

lemma reads_readU32 (v : ℕ) (hv : v < 2 ^ 32) :
    Reads readU32 (UInt32.ofNat v) (toBits 32 v) := by
  have hsplit : toBits 32 v = toBits 8 v ++ (toBits 8 (v / 2 ^ 8) ++
      (toBits 8 (v / 2 ^ 8 / 2 ^ 8) ++ toBits 8 (v / 2 ^ 8 / 2 ^ 8 / 2 ^ 8))) := by
    rw [← toBits_add, ← toBits_add, ← toBits_add]
  have hnat : ∀ n, (UInt32.ofNat (n % 2 ^ 8)).toNat = n % 2 ^ 8 := by
    intro n
    rw [UInt32.toNat_ofNat', Nat.mod_eq_of_lt (by omega)]
  have hword : UInt32.ofNat (v % 2 ^ 8) ||| UInt32.ofNat (v / 2 ^ 8 % 2 ^ 8) <<< 8 |||
      UInt32.ofNat (v / 2 ^ 8 / 2 ^ 8 % 2 ^ 8) <<< 16 |||
      UInt32.ofNat (v / 2 ^ 8 / 2 ^ 8 / 2 ^ 8 % 2 ^ 8) <<< 24 = UInt32.ofNat v := by
    have h₁ := toNat_or_shiftLeft (x := UInt32.ofNat (v % 2 ^ 8))
      (y := UInt32.ofNat (v / 2 ^ 8 % 2 ^ 8)) (k := 8) (by rw [hnat]; omega) (by decide)
      (by rw [hnat]; omega)
    have h₂ := toNat_or_shiftLeft (x := UInt32.ofNat (v % 2 ^ 8) |||
        UInt32.ofNat (v / 2 ^ 8 % 2 ^ 8) <<< UInt32.ofNat 8)
      (y := UInt32.ofNat (v / 2 ^ 8 / 2 ^ 8 % 2 ^ 8)) (k := 16)
      (by rw [h₁, hnat, hnat]; omega) (by decide) (by rw [hnat]; omega)
    have h₃ := toNat_or_shiftLeft (x := UInt32.ofNat (v % 2 ^ 8) |||
        UInt32.ofNat (v / 2 ^ 8 % 2 ^ 8) <<< UInt32.ofNat 8 |||
        UInt32.ofNat (v / 2 ^ 8 / 2 ^ 8 % 2 ^ 8) <<< UInt32.ofNat 16)
      (y := UInt32.ofNat (v / 2 ^ 8 / 2 ^ 8 / 2 ^ 8 % 2 ^ 8)) (k := 24)
      (by rw [h₂, h₁, hnat, hnat, hnat]; omega) (by decide) (by rw [hnat]; omega)
    rw [h₂, h₁, hnat, hnat, hnat, hnat] at h₃
    rw [← UInt32.toNat_inj, UInt32.toNat_ofNat', Nat.mod_eq_of_lt hv]
    refine h₃.trans ?_
    omega
  rw [hsplit, ← hword]
  exact (reads_readBits v (by decide)).bind ((reads_readBits _ (by decide)).bind
    ((reads_readBits _ (by decide)).bind (reads_readBits _ (by decide)).bind_pure))

end BitReader

end RustBinary.Lz
