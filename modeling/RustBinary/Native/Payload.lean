import RustBinary.Native.RoundTrip

/-!
# The payload of an integer

Behind the tag of an integer stands its payload: under every byte order and both encodings an
integer in the range of the tag has one payload, which is what the encoder writes for it and the
only thing that the decoder reads as it.
-/

namespace RustBinary.Native

open Lib Lib.Act

variable [Target] {c : Config}

/-! ## Words -/

omit [Target] in
lemma word128_asI128 (n : ℕ) : Encoder.word128 (asI128 n) = n % 2 ^ 128 := by
  rw [Encoder.word128, asI128]
  split <;> omega

/-- A word that has been read as a signed integer is written again as it was. -/
lemma wordOf_signedWord {width word : ℕ} (hwidth : width ≤ 16) (hword : IsWord c width word) :
    wordOf c width (signedWord c width word) = word := by
  rw [IsWord] at hword
  rw [wordOf, signedWord]
  by_cases h : c.integers = .variable ∧ 1 < width
  · rw [if_pos h] at hword
    rw [if_pos h, if_pos h]
    exact (zigzagEncode_zigzagDecode hword).2.2
  · rw [if_neg h] at hword
    rw [if_neg h, if_neg h, word128_asI128, widen_toBytes hword]
    -- the bytes that extend the sign are cut off again
    have hdvd : 256 ^ width ∣ 2 ^ 128 := by
      rw [show 2 ^ 128 = 256 ^ 16 by norm_num]
      exact Nat.pow_dvd_pow 256 hwidth
    rw [Nat.mod_mod_of_dvd _ hdvd, Nat.add_mul_mod_self_left, Nat.mod_eq_of_lt hword]

/-- A payload has no more than a marker and sixteen bytes. -/
lemma length_spellInt_le {width : ℕ} (hwidth : width ≤ 16) (word : ℕ) :
    (spellInt c width word).length ≤ 17 := by
  rw [spellInt]
  split
  · rw [spellVarint]
    split_ifs <;> simp
  · rw [length_toBytes]
    omega

/-! ## Payloads -/

namespace IntTag

/-- The integers that may stand behind a tag. -/
def InRange : IntTag → ℤ → Prop
  | u64, value => 0 ≤ value ∧ value < 2 ^ 64
  | u128, value => 0 ≤ value ∧ value < 2 ^ 128
  | i64, value => -2 ^ 63 ≤ value ∧ value < 2 ^ 63
  | i128, value => -2 ^ 127 ≤ value ∧ value < 2 ^ 127

instance (tag : IntTag) (value : ℤ) : Decidable (tag.InRange value) := by
  cases tag <;> unfold InRange <;> infer_instance

/-- What the encoder calls behind a tag. -/
def write : IntTag → ℤ → Enc Unit
  | u64, value => Encoder.unsigned value.toNat 8
  | u128, value => Encoder.unsigned value.toNat 16
  | i64, value => Encoder.signed value 8
  | i128, value => Encoder.signed value 16

/-- What the decoder calls behind a tag. -/
def read : IntTag → Dec ℤ
  | u64 => (fun n : ℕ => (n : ℤ)) <$> Decoder.readU64
  | u128 => (fun n : ℕ => (n : ℤ)) <$> Decoder.readU128
  | i64 => Decoder.readI64
  | i128 => Decoder.readI128

/-- The word of an integer under a tag. -/
def word (c : Config) : IntTag → ℤ → ℕ
  | u64, value => value.toNat
  | u128, value => value.toNat
  | i64, value => wordOf c 8 value
  | i128, value => wordOf c 16 value

/-- The payload of an integer. -/
def payload (c : Config) (tag : IntTag) (value : ℤ) : List UInt8 :=
  spellInt c tag.width (tag.word c value)

omit [Target] in
lemma width_le (tag : IntTag) : tag.width ≤ 16 := by
  cases tag <;> decide

lemma write_run (tag : IntTag) (value : ℤ) (s : Encoder) :
    tag.write value s = Encoder.orFail (Encoder.emit (tag.payload s.config value)) s := by
  cases tag with
  | u64 | u128 => exact unsigned_run (by decide) _ s
  | i64 | i128 => exact signed_run (by decide) value s

/-- The encoder writes the payload, if there is room for it. -/
lemma write_eq_ok {tag : IntTag} {value : ℤ} {s t : Encoder} {u : Unit} :
    tag.write value s = (.ok u, t) ↔
      HasRoom s (tag.payload s.config value).length ∧ t = wrote s (tag.payload s.config value) := by
  rw [write_run, emit_eq_ok]

/-- What is read behind a tag of an unsigned integer. -/
lemma spells_natural {width : ℕ} (max : ℕ) (hword : ∀ n, n < max + 1 → IsWord c width n) :
    Spells (Under c) ((fun n : ℕ => (n : ℤ)) <$> Decoder.unsigned width max) fun value bs =>
      (0 ≤ value ∧ value < max + 1) ∧ bs = spellInt c width value.toNat := by
  refine ((spells_unsigned width max).map _).congr fun value bs => ?_
  constructor
  · rintro ⟨n, ⟨hmax, -, rfl⟩, rfl⟩
    exact ⟨by omega, by rw [Int.toNat_natCast]⟩
  · rintro ⟨⟨hlow, hhigh⟩, rfl⟩
    exact ⟨value.toNat, ⟨by omega, hword _ (by omega), rfl⟩, by rw [Int.toNat_of_nonneg hlow]⟩

/-- What is read behind a tag of a signed integer. -/
lemma spells_integer {width : ℕ} {min max : ℤ} (hwidth : width ≤ 16)
    (hword : ∀ z, min ≤ z → z < max + 1 →
      IsWord c width (wordOf c width z) ∧ signedWord c width (wordOf c width z) = z) :
    Spells (Under c) (Decoder.signed width min max) fun value bs =>
      (min ≤ value ∧ value < max + 1) ∧ bs = spellInt c width (wordOf c width value) := by
  refine (spells_signed width min max).congr fun value bs => ?_
  constructor
  · rintro ⟨word, hfits, rfl, hmin, hmax, rfl⟩
    exact ⟨⟨hmin, by omega⟩, by rw [wordOf_signedWord hwidth hfits]⟩
  · rintro ⟨⟨hmin, hmax⟩, rfl⟩
    obtain ⟨hfits, hvalue⟩ := hword value hmin hmax
    exact ⟨_, hfits, hvalue.symm, hmin, by omega, rfl⟩

/-- The decoder reads an integer of the range from its payload, and from nothing else. -/
lemma spells_read (tag : IntTag) :
    Spells (Under c) tag.read fun value bs => tag.InRange value ∧ bs = tag.payload c value := by
  cases tag with
  | u64 => exact spells_natural _ fun n hn => isWord_length hn
  | u128 =>
      refine spells_natural _ fun n hn => ?_
      rw [IsWord]
      split <;> omega
  | i64 =>
      refine (spells_integer (by decide) fun z hmin hmax => ?_).congr fun value bs => ?_
      · exact signedWord_64 hmin (by omega)
      · rw [Int.sub_add_cancel]
        rfl
  | i128 =>
      refine (spells_integer (by decide) fun z hmin hmax => ?_).congr fun value bs => ?_
      · exact signedWord_128 hmin (by omega)
      · rw [Int.sub_add_cancel]
        rfl

/-! ## Where a payload begins -/

omit [Target] in
lemma here_of_take {len : ℕ} {d t : Decoder} {bytes : List UInt8}
    (h : Decoder.orFail (Decoder.take len) d = (.ok bytes, t)) : Tape.Here d ([] : List UInt8) := by
  rw [orFail_eq_ok, Decoder.take, get_bind_run] at h
  obtain ⟨stop, d₁, hstop, hrest⟩ := bind_eq_ok.mp h
  obtain ⟨hstop, hd₁⟩ := okOr_eq_ok.mp hstop
  rw [hd₁] at hrest
  obtain ⟨⟨⟩, d₂, hlimit, hrest⟩ := bind_eq_ok.mp hrest
  obtain ⟨hlimit, hd₂⟩ := atMost_eq_ok.mp hlimit
  rw [hd₂] at hrest
  obtain ⟨read, d₃, hslice, -⟩ := bind_eq_ok.mp hrest
  obtain ⟨hle, hend, -⟩ := slice_eq_some.mp (okOr_eq_ok.mp hslice).1
  refine ⟨slice_eq_some.mpr ⟨le_rfl, hle.trans hend, ?_⟩, fun l hl => hle.trans (hlimit l hl)⟩
  rw [List.length_nil, Nat.add_zero, Nat.sub_self, List.take_zero]

lemma here_of_varint {d t : Decoder} {n : ℕ} (h : Decoder.varint d = (.ok n, t)) :
    Tape.Here d ([] : List UInt8) := by
  obtain ⟨first, d₁, hbyte, -⟩ := bind_eq_ok.mp h
  obtain ⟨bytes, d₂, htake, -⟩ := bind_eq_ok.mp hbyte
  exact here_of_take htake

lemma here_of_unsigned {width max : ℕ} {d t : Decoder} {n : ℕ}
    (h : Decoder.unsigned width max d = (.ok n, t)) : Tape.Here d ([] : List UInt8) := by
  rw [Decoder.unsigned, get_bind_run] at h
  obtain ⟨value, d₁, hvalue, -⟩ := bind_eq_ok.mp h
  split at hvalue
  · exact here_of_varint hvalue
  · obtain ⟨source, d₂, htake, -⟩ := bind_eq_ok.mp hvalue
    exact here_of_take htake

lemma here_of_signed {width : ℕ} {min max z : ℤ} {d t : Decoder}
    (h : Decoder.signed width min max d = (.ok z, t)) : Tape.Here d ([] : List UInt8) := by
  rw [Decoder.signed, get_bind_run] at h
  obtain ⟨value, d₁, hvalue, -⟩ := bind_eq_ok.mp h
  split at hvalue
  · obtain ⟨encoded, d₂, hvarint, -⟩ := bind_eq_ok.mp hvalue
    exact here_of_varint hvarint
  · obtain ⟨source, d₂, htake, -⟩ := bind_eq_ok.mp hvalue
    exact here_of_take htake

/-- A decoder that reads an integer stands inside its input and its limit. -/
lemma here_of_read {tag : IntTag} {d t : Decoder} {value : ℤ}
    (h : tag.read d = (.ok value, t)) : Tape.Here d ([] : List UInt8) := by
  cases tag with
  | u64 | u128 =>
      obtain ⟨n, hn, -⟩ := map_eq_ok.mp h
      exact here_of_unsigned hn
  | i64 | i128 => exact here_of_signed h

/-- The decoder reads an integer exactly where its payload lies. -/
lemma read_eq_ok {tag : IntTag} {d t : Decoder} {value : ℤ} :
    tag.read d = (.ok value, t) ↔ tag.InRange value ∧ Tape.Here d (tag.payload d.config value) ∧
      t = Tape.advance d (tag.payload d.config value).length := by
  constructor
  · intro h
    obtain ⟨bs, ⟨hrange, rfl⟩, hhere, rfl⟩ :=
      (spells_read (c := d.config) tag d rfl (here_of_read h) value t).mp h
    exact ⟨hrange, hhere, rfl⟩
  · rintro ⟨hrange, hhere, rfl⟩
    exact (spells_read (c := d.config) tag d rfl hhere.nil value _).mpr
      ⟨_, ⟨hrange, rfl⟩, hhere, rfl⟩

end IntTag

/-! ## There and back -/

/-- Integers and payloads determine each other: what an encoder has written for an integer a
decoder of the same configuration reads as this integer, all of it and no more; where a decoder
has read an integer, this integer is in range and an encoder writes exactly the bytes that were
read; and an encoder with room for the longest payload writes every integer in range. -/
theorem payload_bijection (c : Config) (tag : IntTag) :
    (∀ (s t : Encoder) (value : ℤ), s.config = c → tag.InRange value →
      tag.write value s = (.ok (), t) →
        ∃ bs, t = wrote s bs ∧ ∀ d : Decoder, d.config = c → Tape.Here d bs →
          tag.read d = (.ok value, Tape.advance d bs.length)) ∧
    (∀ (d e : Decoder) (value : ℤ), d.config = c → tag.read d = (.ok value, e) →
      tag.InRange value ∧
        ∃ bs, Tape.Here d bs ∧ e = Tape.advance d bs.length ∧ ∀ s : Encoder, s.config = c →
          HasRoom s bs.length → tag.write value s = (.ok (), wrote s bs)) ∧
    ∀ (s : Encoder) (value : ℤ), s.config = c → tag.InRange value → HasRoom s 17 →
      ∃ t, tag.write value s = (.ok (), t) := by
  refine ⟨?_, ?_, ?_⟩
  · rintro s t value rfl hrange hwrite
    obtain ⟨-, rfl⟩ := IntTag.write_eq_ok.mp hwrite
    refine ⟨_, rfl, fun d hd hhere => ?_⟩
    rw [← hd] at hhere ⊢
    exact IntTag.read_eq_ok.mpr ⟨hrange, hhere, rfl⟩
  · rintro d e value rfl hread
    obtain ⟨hrange, hhere, rfl⟩ := IntTag.read_eq_ok.mp hread
    refine ⟨hrange, _, hhere, rfl, fun s hs hroom => ?_⟩
    rw [← hs] at hroom ⊢
    exact IntTag.write_eq_ok.mpr ⟨hroom, rfl⟩
  · rintro s value rfl hrange ⟨hmax, hlimit⟩
    have hlen : (tag.payload s.config value).length ≤ 17 := length_spellInt_le tag.width_le _
    have hroom : HasRoom s (tag.payload s.config value).length :=
      ⟨by omega, fun l hl => (Nat.add_le_add_left hlen _).trans (hlimit l hl)⟩
    exact ⟨_, IntTag.write_eq_ok.mpr ⟨hroom, rfl⟩⟩

section Case

local instance payloadTarget : Target := ⟨true⟩

def bigEndian : Config := { Config.standard with endian := .big }

def payloadDecoder : Decoder := Decoder.new ⟨[251, 1, 44, 7], by decide⟩ bigEndian

theorem payload_bijection_300 :
    (∃ bs, wrote (Encoder.new bigEndian) [251, 1, 44] = wrote (Encoder.new bigEndian) bs ∧
      ∀ d : Decoder, d.config = bigEndian → Tape.Here d bs →
        IntTag.u64.read d = (.ok 300, Tape.advance d bs.length)) ∧
    (IntTag.u64.InRange 300 ∧ ∃ bs, Tape.Here payloadDecoder bs ∧
      Tape.advance payloadDecoder 3 = Tape.advance payloadDecoder bs.length ∧
      ∀ s : Encoder, s.config = bigEndian → HasRoom s bs.length →
        IntTag.u64.write 300 s = (.ok (), wrote s bs)) ∧
    ∃ t, IntTag.u64.write 300 (Encoder.new bigEndian) = (.ok (), t) :=
  ⟨(payload_bijection bigEndian .u64).1 (Encoder.new bigEndian) _ 300 rfl (by decide) rfl,
    (payload_bijection bigEndian .u64).2.1 payloadDecoder _ 300 rfl rfl,
    (payload_bijection bigEndian .u64).2.2 (Encoder.new bigEndian) 300 rfl (by decide)
      ⟨by decide, fun l hl => by obtain rfl := Option.some.inj hl; decide⟩⟩

end Case

/-- A decoder at the start of what an encoder has written from the start reads it. -/
theorem read_new_of_write_new {tag : IntTag} {value : ℤ} {t : Encoder}
    (hrange : tag.InRange value) (hwrite : tag.write value (Encoder.new c) = (.ok (), t))
    (input : Input) (hinput : input.bytes = t.writer) :
    tag.read (Decoder.new input c) =
      (.ok value, Tape.advance (Decoder.new input c) input.bytes.length) := by
  obtain ⟨⟨-, hlimit⟩, rfl⟩ := IntTag.write_eq_ok.mp hwrite
  have hbytes : input.bytes = tag.payload c value := hinput
  refine IntTag.read_eq_ok.mpr ⟨hrange, ⟨?_, hlimit⟩, by rw [hbytes]; rfl⟩
  show slice input.bytes 0 (0 + (tag.payload c value).length) = some (tag.payload c value)
  rw [hbytes, slice_eq_some]
  simp

end RustBinary.Native
