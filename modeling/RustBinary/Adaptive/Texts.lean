import RustBinary.Adaptive.RoundTrip
import RustBinary.Adaptive.Strings

/-!
# Strings there and back

What a strategy writes for a string, and the decoders on every input: both accept the same frames
and get the same string from them.
-/

namespace RustBinary.Adaptive

open Lib Lib.Act Cursor
open Bitpack hiding Always steady_always

/-! ## The scan -/

lemma topBit_eq (byte : UInt8) : topBit byte = !byteIsAscii byte := by
  have h : ∀ n : Fin 256, topBit (UInt8.ofNat n) = !byteIsAscii (UInt8.ofNat n) := by
    decide +kernel
  have := h ⟨byte.toNat, byte.toNat_lt⟩
  rwa [UInt8.ofNat_toNat] at this

lemma above_eq (byte : UInt8) : decide (127 < byte) = !byteIsAscii byte := by
  rw [byteIsAscii, ← decide_not]
  refine decide_eq_decide.mpr ?_
  rw [UInt8.lt_iff_toNat_lt, UInt8.lt_iff_toNat_lt]
  show 127 < byte.toNat ↔ ¬ byte.toNat < 128
  omega

lemma byteIsAscii_iff {byte : UInt8} : byteIsAscii byte = true ↔ byte.toNat < 128 := by
  rw [byteIsAscii, decide_eq_true_iff, UInt8.lt_iff_toNat_lt]
  rfl

lemma scalarIndex_eq_length {special : UInt8 → Bool} {bytes : List UInt8} :
    scalarIndex special bytes = bytes.length ↔ ∀ byte ∈ bytes, special byte = false := by
  rw [scalarIndex]
  cases h : bytes.findIdx? special with
  | none =>
      rw [List.findIdx?_eq_none_iff] at h
      exact iff_of_true rfl h
  | some index =>
      obtain ⟨hlt, hspecial, -⟩ := List.findIdx?_eq_some_iff_getElem.mp h
      rw [Option.getD_some]
      refine iff_of_false (Nat.ne_of_lt hlt) fun hall => ?_
      rw [hall _ (List.getElem_mem hlt)] at hspecial
      cases hspecial

/-- Every backend tells the same strings. -/
lemma isAscii_iff {backend : Backend} {bytes : List UInt8} :
    isAscii backend bytes = true ↔ ∀ byte ∈ bytes, byte.toNat < 128 := by
  have hscalar : scalarIndex (fun byte => !byteIsAscii byte) bytes = bytes.length ↔
      ∀ byte ∈ bytes, byte.toNat < 128 := by
    rw [scalarIndex_eq_length]
    refine forall₂_congr fun byte _ => ?_
    rw [Bool.not_eq_false', byteIsAscii_iff]
  cases backend with
  | portable =>
      rw [isAscii, List.all_eq_true]
      exact forall₂_congr fun byte _ => byteIsAscii_iff
  | scalar => exact decide_eq_true_iff.trans hscalar
  | sse2 =>
      refine decide_eq_true_iff.trans ?_
      rw [firstNonAscii, vectorIndex_eq topBit_eq]
      exact hscalar
  | avx2 =>
      refine decide_eq_true_iff.trans ?_
      rw [firstNonAscii, vectorIndex_eq topBit_eq]
      exact hscalar
  | neon =>
      refine decide_eq_true_iff.trans ?_
      rw [firstNonAscii, vectorIndex_eq above_eq]
      exact hscalar

/-! ## Seven bits for a byte -/

/-- Every byte is ASCII. -/
def Ascii (bytes : List UInt8) : Prop := ∀ byte ∈ bytes, byte.toNat < 128

/-- The low seven bits of the bytes. -/
def asciiBits (bytes : List UInt8) : List Bool := bytes.flatMap fun byte => toBits 7 byte.toNat

@[simp] lemma asciiBits_nil : asciiBits [] = [] := rfl

@[simp] lemma asciiBits_cons (byte : UInt8) (bytes : List UInt8) :
    asciiBits (byte :: bytes) = toBits 7 byte.toNat ++ asciiBits bytes := List.flatMap_cons

@[simp] lemma length_asciiBits (bytes : List UInt8) :
    (asciiBits bytes).length = 7 * bytes.length := by
  induction bytes with
  | nil => rfl
  | cons byte bytes ih =>
      rw [asciiBits_cons, List.length_append, length_toBits, ih, List.length_cons]
      ring

/-- A bit string of sevens is that of ASCII bytes. -/
lemma exists_asciiBits {length : ℕ} {bits : List Bool} (h : bits.length = 7 * length) :
    ∃ bytes, bytes.length = length ∧ Ascii bytes ∧ asciiBits bytes = bits := by
  induction length generalizing bits with
  | zero =>
      rw [Nat.mul_zero, List.length_eq_zero_iff] at h
      exact ⟨[], rfl, fun _ hmem => absurd hmem (List.not_mem_nil), h.symm⟩
  | succ length ih =>
      have hdrop : (bits.drop 7).length = 7 * length := by
        rw [List.length_drop]
        omega
      obtain ⟨bytes, hlen, hascii, hbits⟩ := ih hdrop
      have hseven : (bits.take 7).length = 7 := by
        rw [List.length_take]
        omega
      have hlt : ofBits (bits.take 7) < 128 := by
        have := ofBits_lt (bits.take 7)
        rwa [hseven] at this
      have hbyte : (UInt8.ofNat (ofBits (bits.take 7))).toNat = ofBits (bits.take 7) := by
        rw [UInt8.toNat_ofNat']
        omega
      have hhead := toBits_ofBits (bits.take 7)
      rw [hseven] at hhead
      refine ⟨UInt8.ofNat (ofBits (bits.take 7)) :: bytes, by rw [List.length_cons, hlen], ?_, ?_⟩
      · intro byte hmem
        rcases List.mem_cons.mp hmem with rfl | hmem
        · rwa [hbyte]
        · exact hascii byte hmem
      · rw [asciiBits_cons, hbyte, hbits, hhead, List.take_append_drop]

lemma Ascii.head {byte : UInt8} {bytes : List UInt8} (h : Ascii (byte :: bytes)) :
    byte.toNat < 128 := h byte (List.mem_cons_self)

lemma Ascii.tail {byte : UInt8} {bytes : List UInt8} (h : Ascii (byte :: bytes)) : Ascii bytes :=
  fun b hb => h b (List.mem_cons_of_mem byte hb)

lemma packs_writeAscii {bytes : List UInt8} (h : Ascii bytes) :
    Packs (writeAscii bytes) (asciiBits bytes) := by
  induction bytes with
  | nil => exact Packs.pure
  | cons byte bytes ih =>
      exact (packs_write (by decide) h.head).bind (ih h.tail)

/-- The writer leaves the packed bits in a buffer of their size. -/
lemma writes_packing {bytes : List UInt8} (h : Ascii bytes)
    (hmax : 7 * bytes.length ≤ u64Max) :
    OutputCursor.Writes (OutputCursor.packing ((7 * bytes.length + 7) / 8) (writeAscii bytes))
      (pack (asciiBits bytes)) := by
  intro written rest hroom
  rw [length_pack, length_asciiBits] at hroom ⊢
  have htake : (rest.take ((7 * bytes.length + 7) / 8)).length = (7 * bytes.length + 7) / 8 :=
    List.length_take_of_le hroom
  have hnew := holds_new (rest.take ((7 * bytes.length + 7) / 8))
  rw [htake] at hnew
  obtain ⟨w, hw, hholds⟩ := packs_writeAscii h _ [] _ hnew (by rw [length_asciiBits]; omega)
    (by rw [length_asciiBits, List.length_nil]; omega)
  rw [List.nil_append, length_asciiBits] at hholds
  have houtput : w.output = pack (asciiBits bytes) :=
    eq_pack_of_unpack (by omega) hholds.unpack_eq
  have hroom' : (7 * bytes.length + 7) / 8 ≤ (OutputCursor.mk written rest).rest.length := hroom
  rw [OutputCursor.packing, if_pos hroom', hw]
  dsimp only
  rw [houtput]

/-! ## Frames -/

/-- Whether a strategy can carry a string of these bytes. -/
def Carries : StringStrategy → List UInt8 → Prop
  | .rawUtf8, _ => True
  | .ascii7, bytes => Ascii bytes ∧ 7 * bytes.length + 7 ≤ u64Max

/-- What a strategy writes behind the length. -/
def stringPayload : StringStrategy → List UInt8 → List UInt8
  | .rawUtf8, bytes => bytes
  | .ascii7, bytes => pack (asciiBits bytes)

/-- The frame of a strategy. -/
def stringFrame (strategy : StringStrategy) (bytes : List UInt8) : List UInt8 :=
  strategy.tag :: (encodeVarintLe bytes.length ++ stringPayload strategy bytes)

lemma length_stringFrame (strategy : StringStrategy) (bytes : List UInt8) :
    (stringFrame strategy bytes).length =
      1 + varintSize bytes.length + (stringPayload strategy bytes).length := by
  rw [stringFrame, List.length_cons, List.length_append, length_encodeVarintLe]
  omega

lemma packedSize_eq_some {length size : ℕ} :
    packedSize length = some size ↔ 7 * length + 7 ≤ u64Max ∧ size = (7 * length + 7) / 8 := by
  rw [packedSize, checkedMul, Nat.mul_comm length]
  constructor
  · intro h
    obtain ⟨bits, hmul, h⟩ := Option.bind_eq_some_iff.mp h
    obtain ⟨bits', hadd, h⟩ := Option.bind_eq_some_iff.mp h
    rw [Option.ite_none_right_eq_some, Option.some.injEq] at hmul
    rw [checkedAdd, Option.ite_none_right_eq_some, Option.some.injEq] at hadd
    obtain ⟨-, rfl⟩ := hmul
    obtain ⟨hle, rfl⟩ := hadd
    cases h
    exact ⟨hle, rfl⟩
  · rintro ⟨hle, rfl⟩
    rw [if_pos (by omega), Option.bind_eq_bind, Option.bind_some, checkedAdd, if_pos hle]
    rfl

lemma frameSize_eq_ok {count size required : ℕ} :
    frameSize count size = .ok required ↔
      required = 1 + varintSize count + size ∧ required ≤ u64Max := by
  rw [frameSize, Outcome.okOr_eq_ok, Option.bind_eq_some_iff]
  simp only [checkedAdd, Option.ite_none_right_eq_some, Option.some.injEq]
  constructor
  · rintro ⟨_, ⟨-, rfl⟩, hle, rfl⟩
    exact ⟨rfl, hle⟩
  · rintro ⟨rfl, hle⟩
    exact ⟨_, ⟨by omega, rfl⟩, hle, rfl⟩

section Layout

variable {backend : Backend} {value : Str} {mode : AdaptiveMode} {strategy : StringStrategy}
  {size required : ℕ}

/-- A size in seven bits is that of an ASCII string. -/
lemma asciiSize_eq_some (h : asciiSize backend value mode = .ok (some size)) :
    Carries .ascii7 value.bytes ∧ size = (stringPayload .ascii7 value.bytes).length := by
  rw [asciiSize] at h
  split at h
  · cases h
  split at h
  · next hascii =>
      obtain ⟨size', hsome, heq⟩ := Outcome.bind_eq_ok.mp h
      cases heq
      rw [Outcome.okOr_eq_ok, packedSize_eq_some] at hsome
      obtain ⟨hmax, rfl⟩ := hsome
      refine ⟨⟨isAscii_iff.mp hascii, hmax⟩, ?_⟩
      rw [stringPayload, length_pack, length_asciiBits]
  · cases h

/-- A layout is that of a strategy that can carry the string. -/
lemma stringLayout_of_ok (h : stringLayout backend value mode = .ok (strategy, size, required)) :
    Carries strategy value.bytes ∧ size = (stringPayload strategy value.bytes).length ∧
      required = (stringFrame strategy value.bytes).length := by
  obtain ⟨packed, hpacked, h⟩ := Outcome.bind_eq_ok.mp h
  have hchosen : smaller packed value.bytes.length = (strategy, size) ∧
      required = 1 + varintSize value.bytes.length + size := by
    obtain ⟨total, htotal, h⟩ := Outcome.bind_eq_ok.mp h
    cases h
    exact ⟨rfl, (frameSize_eq_ok.mp htotal).1⟩
  obtain ⟨hsmaller, rfl⟩ := hchosen
  have hcarries : Carries strategy value.bytes ∧
      size = (stringPayload strategy value.bytes).length := by
    cases packed with
    | none =>
        cases hsmaller
        exact ⟨trivial, rfl⟩
    | some payload =>
        rw [smaller] at hsmaller
        split at hsmaller
        · cases hsmaller
          exact asciiSize_eq_some hpacked
        · cases hsmaller
          exact ⟨trivial, rfl⟩
  obtain ⟨hcarries, rfl⟩ := hcarries
  exact ⟨hcarries, rfl, (length_stringFrame _ _).symm⟩

/-- Where the sizes are in range, some strategy is laid out, and it is no longer than the bytes. -/
lemma stringLayout_ok (h : 7 * value.bytes.length + 7 ≤ u64Max) :
    ∃ strategy size required, stringLayout backend value mode = .ok (strategy, size, required) ∧
      size ≤ value.bytes.length := by
  have hpacked : ∃ packed, asciiSize backend value mode = .ok packed := by
    rw [asciiSize]
    split
    · exact ⟨none, rfl⟩
    split
    · exact ⟨_, by rw [packedSize_eq_some.mpr ⟨h, rfl⟩]; rfl⟩
    · exact ⟨none, rfl⟩
  obtain ⟨packed, hpacked⟩ := hpacked
  have hle : (smaller packed value.bytes.length).2 ≤ value.bytes.length := by
    cases packed with
    | none => exact Nat.le_refl _
    | some size =>
        rw [smaller]
        split
        · next hlt => exact Nat.le_of_lt hlt
        · exact Nat.le_refl _
  have hvarint := varintSize_le value.bytes.length
  have hsum := Nat.add_le_add_left hle (1 + varintSize value.bytes.length)
  obtain ⟨required, hframe⟩ : ∃ required,
      frameSize value.bytes.length (smaller packed value.bytes.length).2 = .ok required := by
    refine ⟨_, frameSize_eq_ok.mpr ⟨rfl, ?_⟩⟩
    rw [u64Max] at h ⊢
    omega
  have hlayout : stringLayout backend value mode =
      .ok ((smaller packed value.bytes.length).1, (smaller packed value.bytes.length).2,
        required) := by
    rw [stringLayout, hpacked, Outcome.ok_bind]
    dsimp only
    rw [hframe]
    rfl
  exact ⟨_, _, _, hlayout, hle⟩

end Layout

/-! ## Encoding -/

section Encoding

variable {backend : Backend} {c : AdaptiveConfig} {value : Str} {strategy : StringStrategy}
  {size required : ℕ} {output bytes : List UInt8}

lemma limitedStringLayout_eq_ok :
    limitedStringLayout backend c value = .ok (strategy, size, required) ↔
      stringLayout backend value c.mode = .ok (strategy, size, required) ∧
        ∀ limit, c.base.limit = some limit → required ≤ limit := by
  constructor
  · intro h
    obtain ⟨⟨strategy', size', required'⟩, hlayout, h⟩ := Outcome.bind_eq_ok.mp h
    obtain ⟨_, hlimit, h⟩ := Outcome.bind_eq_ok.mp h
    cases h
    exact ⟨hlayout, Config.enforceByteLimit_eq_ok.mp hlimit⟩
  · rintro ⟨hlayout, hlimit⟩
    rw [limitedStringLayout, hlayout, Outcome.ok_bind]
    have henforce : c.base.enforceByteLimit required = .ok () :=
      Config.enforceByteLimit_eq_ok.mpr hlimit
    dsimp only
    rw [henforce]
    rfl

/-- A slice with room for the frame receives it. -/
lemma encodeStringIntoSlice_of
    (hlayout : limitedStringLayout backend c value = .ok (strategy, size, required))
    (hroom : required ≤ output.length) :
    encodeStringIntoSlice backend c value output =
      (.ok required, stringFrame strategy value.bytes ++ output.drop required) := by
  obtain ⟨hcarries, hsize, hrequired⟩ :=
    stringLayout_of_ok (limitedStringLayout_eq_ok.mp hlayout).1
  have hwrites : OutputCursor.Writes (do
      OutputCursor.byte strategy.tag
      OutputCursor.varint value.bytes.length
      writePayload size value.bytes strategy) (stringFrame strategy value.bytes) := by
    refine (OutputCursor.writes_bytes [strategy.tag]).bind
      ((OutputCursor.writes_bytes (encodeVarintLe value.bytes.length)).bind ?_)
    cases strategy with
    | rawUtf8 => exact OutputCursor.writes_bytes value.bytes
    | ascii7 =>
        obtain ⟨hascii, hmax⟩ := hcarries
        rw [stringPayload, length_pack, length_asciiBits] at hsize
        rw [writePayload, hsize]
        exact writes_packing hascii (by omega)
  subst hrequired
  rw [encodeStringIntoSlice, hlayout]
  refine (bind_of_ok (call_run _ _)).trans ?_
  dsimp only
  rw [get_bind_run, if_neg (by omega), bind_of_ok (OutputCursor.fill_of hwrites hroom)]
  rfl

/-- What the encoder writes: the frame that is laid out, if there can be a vector of its size. -/
lemma encodeString_eq_ok :
    encodeString backend c value = .ok bytes ↔
      ∃ strategy size required,
        limitedStringLayout backend c value = .ok (strategy, size, required) ∧
          required ≤ isizeMax ∧ bytes = stringFrame strategy value.bytes := by
  by_cases hoff : c.mode = .off
  · have hlayout : stringLayout backend value c.mode = (do
        let required ← frameSize value.bytes.length value.bytes.length
        pure (.rawUtf8, value.bytes.length, required)) := by
      rw [stringLayout, asciiSize, if_pos hoff]
      rfl
    simp only [limitedStringLayout_eq_ok, hlayout]
    rw [encodeString, if_pos hoff]
    simp only [Outcome.bind_eq_ok, Config.enforceByteLimit_eq_ok, withCapacity_eq_ok, one_mul,
      exists_const, Outcome.pure_eq_ok, Outcome.ok.injEq, Prod.mk.injEq]
    constructor
    · rintro ⟨required, hrequired, hlimit, hmax, rfl⟩
      exact ⟨_, _, _, ⟨⟨required, hrequired, rfl, rfl, rfl⟩, hlimit⟩, hmax, rfl⟩
    · rintro ⟨_, _, _, ⟨⟨required, hrequired, rfl, rfl, rfl⟩, hlimit⟩, hmax, rfl⟩
      exact ⟨required, hrequired, hlimit, hmax, rfl⟩
  · -- the frame is written into a slice of exactly its size
    have hfull : ∀ {strategy : StringStrategy} {size required : ℕ},
        limitedStringLayout backend c value = .ok (strategy, size, required) →
        encodeStringIntoSlice backend c value (List.replicate required 0) =
          (.ok required, stringFrame strategy value.bytes) := by
      intro strategy size required hlayout
      rw [encodeStringIntoSlice_of hlayout (by rw [List.length_replicate])]
      simp
    rw [encodeString, if_neg hoff]
    constructor
    · intro h
      obtain ⟨required, hrequired, h⟩ := Outcome.bind_eq_ok.mp h
      obtain ⟨_, hreserve, h⟩ := Outcome.bind_eq_ok.mp h
      obtain ⟨⟨strategy, size, required'⟩, hlayout, hpure⟩ := Outcome.bind_eq_ok.mp hrequired
      cases hpure
      rw [hfull hlayout] at h
      cases h
      exact ⟨strategy, size, _, hlayout, Outcome.require_eq_ok.mp hreserve, rfl⟩
    · rintro ⟨strategy, size, required, hlayout, hmax, rfl⟩
      rw [encodedStringSize, hlayout]
      simp only [Outcome.ok_bind, Outcome.pure_eq_ok, Outcome.require_of hmax, hfull hlayout]

end Encoding

/-! ## Seven bits at a time -/

lemma reads_seven {n : ℕ} (h : n < 128) : Reads (BitReader.read 7) n (toBits 7 n) :=
  .of_spells (spells_read 7) (fun _ => trivial) ⟨by decide, h, rfl⟩

/-- The characters that are pushed are those of the bytes. -/
lemma pushAscii_of {bytes : List UInt8} (value : String) {s : BitReader} (h : Ascii bytes)
    (hhere : Tape.Here s (asciiBits bytes)) :
    ∃ text, (pushAscii bytes.length value s).1 = .ok text ∧
      toUtf8 text = toUtf8 value ++ bytes := by
  induction bytes generalizing value s with
  | nil => exact ⟨value, rfl, (List.append_nil _).symm⟩
  | cons byte bytes ih =>
      rw [asciiBits_cons] at hhere
      obtain ⟨hhead, htail⟩ := (Tape.here_append _ _ _).mp hhere
      obtain ⟨text, htext, heq⟩ := ih (value.push (Char.ofNat byte.toNat)) h.tail htail
      refine ⟨text, ?_, ?_⟩
      · rw [List.length_cons, pushAscii, bind_of_ok (reads_seven h.head s hhead), htext]
      · rw [heq, toUtf8_push h.head, UInt8.ofNat_toNat, List.append_assoc, List.singleton_append]

/-- The bytes that are written are those that were packed. -/
lemma fillSlots_of {bytes : List UInt8} {reader : BitReader} {s : StringDecoding}
    (h : Ascii bytes) (hhere : Tape.Here reader (asciiBits bytes)) :
    StringDecoding.fillSlots bytes.length reader s =
      (.ok (), { s with written := s.written ++ bytes }) := by
  induction bytes generalizing reader s with
  | nil => rw [List.append_nil]; rfl
  | cons byte bytes ih =>
      rw [asciiBits_cons] at hhere
      obtain ⟨hhead, htail⟩ := (Tape.here_append _ _ _).mp hhere
      rw [List.length_cons, StringDecoding.fillSlots, reads_seven h.head reader hhead]
      dsimp only
      rw [bind_of_ok (call_run _ _), StringDecoding.emit, modify_bind_run, ih h.tail htail,
        UInt8.ofNat_toNat, List.append_assoc, List.singleton_append]

/-- The bits that packed bytes begin with. -/
lemma here_packed {bytes : List UInt8} {packed : Slice 1 UInt8} {rest : List Bool}
    (hmax : 7 * bytes.length + 7 ≤ u64Max)
    (happend : unpack packed.elems = asciiBits bytes ++ rest) :
    Tape.Here (BitReader.new packed) (asciiBits bytes) := by
  refine ⟨?_, ?_⟩
  · have hslice := slice_append [] (asciiBits bytes) rest
    rw [List.nil_append, ← happend] at hslice
    exact hslice
  · rintro limit ⟨⟩
    rw [length_asciiBits]
    show 0 + 7 * bytes.length ≤ u64Max
    omega

/-- Packed bytes hold the bits of some ASCII bytes. -/
lemma exists_packed {length : ℕ} {packed : List UInt8}
    (hlen : packed.length = (7 * length + 7) / 8) :
    ∃ bytes, bytes.length = length ∧ Ascii bytes ∧
      unpack packed = asciiBits bytes ++ (unpack packed).drop (7 * length) := by
  have htake : ((unpack packed).take (7 * length)).length = 7 * length := by
    rw [List.length_take, length_unpack]
    omega
  obtain ⟨bytes, hbytes, hascii, hbits⟩ := exists_asciiBits htake
  refine ⟨bytes, hbytes, hascii, ?_⟩
  rw [hbits, List.take_append_drop]

/-- The padding is valid when the bytes are those of a packing. -/
lemma validateAsciiPadding_eq_ok {packed bytes : List UInt8} {u : Unit}
    (hlen : packed.length = (7 * bytes.length + 7) / 8)
    (happend : unpack packed = asciiBits bytes ++ (unpack packed).drop (7 * bytes.length)) :
    validateAsciiPadding packed (7 * bytes.length) = .ok u ↔ packed = pack (asciiBits bytes) := by
  have hpack : packed = pack (asciiBits bytes) ↔ (unpack packed).drop (7 * bytes.length) =
      List.replicate (8 * packed.length - 7 * bytes.length) false := by
    constructor
    · intro h
      have hunpack := unpack_pack (asciiBits bytes)
      rw [← h, length_asciiBits, ← hlen] at hunpack
      rw [hunpack, List.drop_left' (length_asciiBits bytes)]
    · intro h
      rw [h] at happend
      exact eq_pack_of_unpack (by omega) happend
  rw [hpack, validateAsciiPadding]
  by_cases hr : 7 * bytes.length % 8 = 0
  · rw [if_neg fun h => h.1 hr, List.drop_eq_nil_of_le (by rw [length_unpack]; omega),
      show 8 * packed.length - 7 * bytes.length = 0 by omega]
    simp
  · obtain ⟨last, hlast⟩ : ∃ last, packed.getLast? = some last := by
      cases hlast : packed.getLast? with
      | some last => exact ⟨last, rfl⟩
      | none =>
          rw [List.getLast?_eq_none_iff] at hlast
          rw [hlast, List.length_nil] at hlen
          omega
    rw [← getLast_shiftRight_eq_zero_iff hr hlen hlast, hlast, Option.any_some]
    by_cases hshift : last >>> UInt8.ofNat (7 * bytes.length % 8) = 0
    · rw [if_neg (by simp [hshift])]
      exact iff_of_true rfl hshift
    · rw [if_pos ⟨hr, by simp [hshift]⟩]
      exact iff_of_false (by rintro ⟨⟩) hshift

/-- A packing is a slice. -/
lemma exists_slice {bytes : List UInt8} (hmax : 7 * bytes.length + 7 ≤ u64Max) :
    ∃ packed : Slice 1 UInt8, packed.elems = pack (asciiBits bytes) ∧
      packed.elems.length = (7 * bytes.length + 7) / 8 ∧
      unpack packed.elems = asciiBits bytes ++ (unpack packed.elems).drop (7 * bytes.length) := by
  have hlen : (pack (asciiBits bytes)).length = (7 * bytes.length + 7) / 8 := by
    rw [length_pack, length_asciiBits]
  refine ⟨⟨pack (asciiBits bytes), ?_⟩, rfl, hlen, ?_⟩
  · rw [hlen, isizeMax]
    rw [u64Max] at hmax
    omega
  · rw [unpack_pack, List.drop_left' (length_asciiBits _)]

/-! ## The borrowing decoder -/

/-- The result for a strategy: ASCII is expanded, the raw bytes are borrowed. -/
def StringStrategy.cow : StringStrategy → String → Cow
  | .rawUtf8, text => .borrowed text
  | .ascii7, text => .owned text

@[simp] lemma intoOwned_cow (strategy : StringStrategy) (text : String) :
    (strategy.cow text).intoOwned = text := by
  cases strategy <;> rfl

lemma stringStrategyOf_eq_some {tag : UInt8} {strategy : StringStrategy} :
    stringStrategyOf tag = some strategy ↔ tag = strategy.tag := by
  rw [stringStrategyOf]
  split
  · next h => cases strategy <;> simp [h, StringStrategy.tag]
  · split
    · next h => cases strategy <;> simp [h, StringStrategy.tag]
    · next h₀ h₁ => cases strategy <;> simp [h₀, h₁, StringStrategy.tag]

lemma spells_takeSlice (length : ℕ) :
    Spells Always (takeSlice length) fun part bs => part.elems = bs ∧ bs.length = length := by
  refine ((spells_take length).bind (M := fun bytes part bs => part.elems = bytes ∧ bs = [])
    steady_always fun bytes => ?_).congr fun part bs => ?_
  · by_cases h : 1 * bytes.length ≤ isizeMax
    · rw [dif_pos h]
      refine (Spells.pure _).congr fun part bs => and_congr_left fun _ => ?_
      constructor
      · rintro rfl
        rfl
      · rintro rfl
        rfl
    · rw [dif_neg h]
      refine (Spells.never fun s _ a t => by simp).congr fun part bs => ?_
      refine iff_of_false id fun hpart => h ?_
      rw [← hpart.1]
      exact part.length_le
  · constructor
    · rintro ⟨bytes, xs, ys, ⟨rfl, hlen⟩, ⟨hpart, rfl⟩, rfl⟩
      rw [List.append_nil]
      exact ⟨hpart, hlen⟩
    · rintro ⟨hpart, hlen⟩
      exact ⟨bs, bs, [], ⟨rfl, hlen⟩, ⟨hpart, rfl⟩, (List.append_nil _).symm⟩

lemma spells_takePacked (length : ℕ) :
    Spells Always (takePacked length) fun part bs =>
      (7 * length + 7 ≤ u64Max ∧ part.1 = 7 * length) ∧ part.2.elems = bs ∧
        bs.length = (7 * length + 7) / 8 := by
  refine ((Spells.okOr (checkedMul length 7) _).bind steady_always fun bits =>
    (Spells.okOr (checkedAdd bits 7) _).bind steady_always fun packed =>
      (spells_takeSlice (packed / 8)).bind steady_always fun bytes =>
        Spells.pure (bits, bytes)).congr fun part bs => ?_
  rw [checkedMul, Nat.mul_comm length]
  constructor
  · rintro ⟨bits, _, _, ⟨hmul, rfl⟩, ⟨packed, _, _, ⟨hadd, rfl⟩, ⟨bytes, xs, _, ⟨hbytes, hlen⟩,
      ⟨rfl, rfl⟩, rfl⟩, rfl⟩, rfl⟩
    rw [Option.ite_none_right_eq_some, Option.some.injEq] at hmul
    obtain ⟨-, rfl⟩ := hmul
    rw [checkedAdd, Option.ite_none_right_eq_some, Option.some.injEq] at hadd
    obtain ⟨hmax, rfl⟩ := hadd
    rw [List.append_nil, List.nil_append, List.nil_append]
    exact ⟨⟨hmax, rfl⟩, hbytes, hlen⟩
  · rintro ⟨⟨hmax, hbits⟩, hbytes, hlen⟩
    refine ⟨7 * length, [], bs, ⟨if_pos (by omega), rfl⟩, ⟨7 * length + 7, [], bs,
      ⟨if_pos hmax, rfl⟩, ⟨part.2, bs, [], ⟨hbytes, hlen⟩, ⟨?_, rfl⟩, ?_⟩, rfl⟩, rfl⟩
    · rw [← hbits]
    · rw [List.append_nil]

/-- The payload of a string, and what comes of it. -/
lemma spells_textBorrowed (length : ℕ) (strategy : StringStrategy) :
    Spells Always (textBorrowed length strategy) fun value bs =>
      ∃ text, (toUtf8 text).length = length ∧ Carries strategy (toUtf8 text) ∧
        bs = stringPayload strategy (toUtf8 text) ∧ value = strategy.cow text := by
  cases strategy with
  | rawUtf8 =>
      refine ((spells_take length).bind steady_always fun bytes =>
        (Spells.okOr (fromUtf8 bytes) _).bind steady_always fun text =>
          Spells.pure (Cow.borrowed text)).congr fun value bs => ?_
      constructor
      · rintro ⟨_, bytes, _, ⟨rfl, hlen⟩, ⟨text, _, _, ⟨htext, rfl⟩, ⟨rfl, rfl⟩, rfl⟩, rfl⟩
        obtain rfl := fromUtf8_eq_some.mp htext
        exact ⟨text, hlen, trivial, List.append_nil _, rfl⟩
      · rintro ⟨text, hlen, -, rfl, rfl⟩
        exact ⟨_, _, [], ⟨rfl, hlen⟩, ⟨text, [], [], ⟨fromUtf8_toUtf8 text, rfl⟩, ⟨rfl, rfl⟩, rfl⟩,
          (List.append_nil _).symm⟩
  | ascii7 =>
      refine ((spells_takePacked length).bind steady_always fun part =>
        (Spells.require (length ≤ isizeMax) _).bind steady_always fun _ =>
          (Spells.call (pushAscii length "" (BitReader.new part.2)).1).bind steady_always
            fun text => (Spells.call (validateAsciiPadding part.2.elems part.1)).bind
              steady_always fun _ => Spells.pure (Cow.owned text)).congr fun value bs => ?_
      constructor
      · rintro ⟨⟨bits, packed⟩, xs, _, ⟨⟨hmax, hbits⟩, hpacked, hlen⟩, ⟨_, _, _, ⟨-, rfl⟩,
          ⟨text, _, _, ⟨htext, rfl⟩, ⟨_, _, _, ⟨hvalid, rfl⟩, ⟨rfl, rfl⟩, rfl⟩, rfl⟩, rfl⟩, rfl⟩
        obtain rfl : bits = 7 * length := hbits
        obtain rfl : packed.elems = xs := hpacked
        obtain ⟨bytes, rfl, hascii, happend⟩ := exists_packed hlen
        obtain ⟨text', htext', hutf⟩ := pushAscii_of "" hascii (here_packed hmax happend)
        obtain rfl : text' = text := by
          rw [htext'] at htext
          exact Outcome.ok.inj htext
        have hutf : toUtf8 text' = bytes := hutf
        refine ⟨text', congrArg List.length hutf, ?_, ?_, rfl⟩
        · rw [hutf]
          exact ⟨hascii, hmax⟩
        · rw [hutf, (validateAsciiPadding_eq_ok hlen happend).mp hvalid]
          simp [stringPayload]
      · rintro ⟨text, rfl, ⟨hascii, hmax⟩, rfl, rfl⟩
        obtain ⟨packed, hpacked, hlen, happend⟩ := exists_slice hmax
        obtain ⟨text', htext', hutf⟩ := pushAscii_of "" hascii (here_packed hmax happend)
        obtain rfl : text' = text := toUtf8_inj hutf
        have hvalid : validateAsciiPadding packed.elems (7 * (toUtf8 text').length) = .ok () :=
          (validateAsciiPadding_eq_ok hlen happend).mpr hpacked
        have hsize : (toUtf8 text').length ≤ isizeMax := by
          rw [u64Max] at hmax
          rw [isizeMax]
          omega
        exact ⟨(7 * (toUtf8 text').length, packed), packed.elems, [],
          ⟨⟨hmax, rfl⟩, rfl, hlen⟩, ⟨(), [], [], ⟨hsize, rfl⟩, ⟨text', [], [], ⟨htext', rfl⟩,
            ⟨(), [], [], ⟨hvalid, rfl⟩, ⟨rfl, rfl⟩, rfl⟩, rfl⟩, rfl⟩, by
              rw [hpacked, List.append_nil, stringPayload]⟩

lemma spells_stringBorrowed :
    Spells Always stringBorrowed fun value bs =>
      ∃ strategy text, (toUtf8 text).length ≤ u64Max ∧ Carries strategy (toUtf8 text) ∧
        bs = stringFrame strategy (toUtf8 text) ∧ value = strategy.cow text := by
  refine (spells_byte.bind steady_always fun tag =>
    spells_usizeVarint.bind steady_always fun length =>
      (Spells.okOr (stringStrategyOf tag) _).bind steady_always fun strategy =>
        spells_textBorrowed length strategy).congr fun value bs => ?_
  simp only [stringStrategyOf_eq_some]
  constructor
  · rintro ⟨_, _, _, rfl, ⟨_, _, _, ⟨hmax, rfl⟩, ⟨strategy, _, _, ⟨rfl, rfl⟩,
      ⟨text, rfl, hcarries, rfl, rfl⟩, rfl⟩, rfl⟩, rfl⟩
    exact ⟨strategy, text, hmax, hcarries, rfl, rfl⟩
  · rintro ⟨strategy, text, hmax, hcarries, rfl, rfl⟩
    exact ⟨strategy.tag, [_], _, rfl, ⟨_, _, _, ⟨hmax, rfl⟩, ⟨strategy, [], _, ⟨rfl, rfl⟩,
      ⟨text, rfl, hcarries, rfl, rfl⟩, rfl⟩, rfl⟩, rfl⟩

section Decoding

variable {c : AdaptiveConfig} {input : Slice 1 UInt8}

/-- What the borrowing decoder accepts. -/
lemma decodeStringBorrowed_eq_ok {value : Cow} :
    decodeStringBorrowed c input = .ok value ↔
      (∀ limit, c.base.limit = some limit → input.elems.length ≤ limit) ∧
        ∃ strategy text rest, (toUtf8 text).length ≤ u64Max ∧ Carries strategy (toUtf8 text) ∧
          input.elems = stringFrame strategy (toUtf8 text) ++ rest ∧
          (c.base.trailing = .reject → rest = []) ∧ value = strategy.cow text := by
  rw [decodeStringBorrowed, Outcome.bind_eq_ok]
  simp only [Config.enforceByteLimit_eq_ok, exists_const, whole_eq_ok spells_stringBorrowed]
  refine and_congr_right fun _ => ?_
  constructor
  · rintro ⟨_, rest, ⟨strategy, text, hmax, hcarries, rfl, rfl⟩, hinput, hrest⟩
    exact ⟨strategy, text, rest, hmax, hcarries, hinput, hrest, rfl⟩
  · rintro ⟨strategy, text, rest, hmax, hcarries, hinput, hrest, rfl⟩
    exact ⟨_, rest, ⟨strategy, text, hmax, hcarries, rfl, rfl⟩, hinput, hrest⟩

/-! ## The decoder into an output -/

namespace StringDecoding

lemma reading_eq_ok {α : Type} {m : Act Cursor Error α} {L : α → List UInt8 → Prop}
    (h : Spells Always m L) {s t : StringDecoding} (hhere : Tape.Here s.cursor ([] : List UInt8))
    {a : α} : reading m s = (.ok a, t) ↔ ∃ bs, L a bs ∧ Tape.Here s.cursor bs ∧
      t = { s with cursor := Tape.advance s.cursor bs.length } := by
  have hrun : reading m s = (.ok a, t) ↔
      ∃ cursor, m s.cursor = (.ok a, cursor) ∧ t = { s with cursor := cursor } := by
    rw [reading]
    rcases m s.cursor with ⟨outcome, cursor⟩
    simp [eq_comm]
  rw [hrun]
  constructor
  · rintro ⟨cursor, hm, rfl⟩
    obtain ⟨bs, hL, hbs, rfl⟩ := (h s.cursor trivial hhere a cursor).mp hm
    exact ⟨bs, hL, hbs, rfl⟩
  · rintro ⟨bs, hL, hbs, rfl⟩
    exact ⟨_, (h s.cursor trivial hhere a _).mpr ⟨bs, hL, hbs, rfl⟩, rfl⟩

lemma spells_header :
    Spells Always header fun p bs =>
      p.2 ≤ u64Max ∧ bs = p.1.tag :: encodeVarintLe p.2 := by
  refine (spells_byte.bind steady_always fun tag =>
    (Spells.okOr (stringStrategyOf tag) _).bind steady_always fun strategy =>
      spells_usizeVarint.bind steady_always fun length =>
        Spells.pure (strategy, length)).congr fun p bs => ?_
  simp only [stringStrategyOf_eq_some]
  constructor
  · rintro ⟨_, _, _, rfl, ⟨strategy, _, _, ⟨rfl, rfl⟩, ⟨length, _, _, ⟨hmax, rfl⟩, ⟨rfl, rfl⟩,
      rfl⟩, rfl⟩, rfl⟩
    exact ⟨hmax, by simp⟩
  · rintro ⟨hmax, rfl⟩
    exact ⟨p.1.tag, [_], _, rfl, ⟨p.1, [], _, ⟨rfl, rfl⟩, ⟨p.2, _, [], ⟨hmax, rfl⟩, ⟨rfl, rfl⟩,
      rfl⟩, rfl⟩, by simp⟩

/-- The payload of a string is written to the output. -/
lemma payload_eq_ok {strategy : StringStrategy} {length : ℕ} {s t : StringDecoding} {u : Unit}
    (hhere : Tape.Here s.cursor ([] : List UInt8)) :
    payload strategy length s = (.ok u, t) ↔
      ∃ text, (toUtf8 text).length = length ∧ Carries strategy (toUtf8 text) ∧
        Tape.Here s.cursor (stringPayload strategy (toUtf8 text)) ∧
        t = ⟨Tape.advance s.cursor (stringPayload strategy (toUtf8 text)).length,
          s.written ++ toUtf8 text⟩ := by
  cases strategy with
  | rawUtf8 =>
      rw [payload]
      simp only [bind_eq_ok, reading_eq_ok (spells_take length) hhere, okOr_eq_ok, emit,
        modify_run, Prod.mk.injEq]
      constructor
      · rintro ⟨_, _, ⟨bytes, ⟨rfl, hlen⟩, hbytes, rfl⟩, text, _, ⟨htext, rfl⟩, -, rfl⟩
        obtain rfl := fromUtf8_eq_some.mp htext
        exact ⟨text, hlen, trivial, hbytes, rfl⟩
      · rintro ⟨text, hlen, -, hbytes, rfl⟩
        exact ⟨_, _, ⟨_, ⟨rfl, hlen⟩, hbytes, rfl⟩, text, _, ⟨fromUtf8_toUtf8 text, rfl⟩, trivial,
          rfl⟩
  | ascii7 =>
      rw [payload, bind_eq_ok]
      simp only [reading_eq_ok (spells_takePacked length) hhere]
      constructor
      · rintro ⟨⟨bits, packed⟩, _, ⟨bs, ⟨⟨hmax, hbits⟩, hpacked, hlen⟩, hbs, rfl⟩, h⟩
        obtain rfl : bits = 7 * length := hbits
        obtain rfl : packed.elems = bs := hpacked
        obtain ⟨bytes, rfl, hascii, happend⟩ := exists_packed hlen
        obtain ⟨text, -, hutf⟩ := pushAscii_of "" hascii (here_packed hmax happend)
        have hutf : toUtf8 text = bytes := hutf
        dsimp only at h
        rw [bind_of_ok (fillSlots_of hascii (here_packed hmax happend)), call_run,
          Prod.mk.injEq] at h
        obtain ⟨hvalid, rfl⟩ := h
        have hpacked := (validateAsciiPadding_eq_ok hlen happend).mp hvalid
        rw [hpacked] at hbs
        refine ⟨text, congrArg List.length hutf, ?_, ?_, ?_⟩
        · rw [hutf]
          exact ⟨hascii, hmax⟩
        · rw [hutf]
          exact hbs
        · rw [hutf, stringPayload, ← hpacked]
      · rintro ⟨text, rfl, ⟨hascii, hmax⟩, hbs, rfl⟩
        obtain ⟨packed, hpacked, hlen, happend⟩ := exists_slice hmax
        have hvalid : validateAsciiPadding packed.elems (7 * (toUtf8 text).length) = .ok u :=
          (validateAsciiPadding_eq_ok hlen happend).mpr hpacked
        rw [stringPayload, ← hpacked] at hbs
        refine ⟨(7 * (toUtf8 text).length, packed), _,
          ⟨packed.elems, ⟨⟨hmax, rfl⟩, rfl, hlen⟩, hbs, rfl⟩, ?_⟩
        dsimp only
        rw [bind_of_ok (fillSlots_of hascii (here_packed hmax happend)), call_run, hvalid,
          stringPayload, ← hpacked]

/-- What the decoder into an output accepts. -/
lemma body_eq_ok {available : ℕ} {text : String} :
    (body c available ⟨Cursor.new input, []⟩).1 = .ok text ↔
      ∃ strategy rest, (toUtf8 text).length ≤ u64Max ∧ (toUtf8 text).length ≤ available ∧
        Carries strategy (toUtf8 text) ∧
        input.elems = stringFrame strategy (toUtf8 text) ++ rest ∧
        (c.base.trailing = .reject → rest = []) := by
  set start : StringDecoding := ⟨Cursor.new input, []⟩ with hstart
  have hnil : Tape.Here start.cursor ([] : List UInt8) := here_new.mpr ⟨input.elems, rfl⟩
  -- where the cursor is behind a frame, it is at the end if nothing is left
  have hend : ∀ {bs rest : List UInt8}, input.elems = bs ++ rest →
      ((Tape.advance (Cursor.new input) bs.length).position =
        (Tape.advance (Cursor.new input) bs.length).input.elems.length ↔ rest = []) := by
    intro bs rest hinput
    have hlen := congrArg List.length hinput
    rw [List.length_append] at hlen
    rw [← List.length_eq_zero_iff, show (Tape.advance (Cursor.new input) bs.length).position =
      bs.length from Nat.zero_add _]
    show bs.length = input.elems.length ↔ _
    omega
  have hfinish : ∀ {s t : StringDecoding} {u : Unit},
      reading (finish c.base.trailing) s = (.ok u, t) ↔
        (c.base.trailing = .reject → s.cursor.position = s.cursor.input.elems.length) ∧
          t = s := by
    intro s t u
    have hok : ∀ cursor, finish c.base.trailing s.cursor = (.ok u, cursor) ↔
        (c.base.trailing = .reject → s.cursor.position = s.cursor.input.elems.length) ∧
          cursor = s.cursor := fun cursor => finish_eq_ok
    rw [reading]
    rcases h : finish c.base.trailing s.cursor with ⟨outcome, cursor⟩
    rw [h] at hok
    constructor
    · rintro ⟨⟩
      obtain ⟨hreject, rfl⟩ := (hok cursor).mp rfl
      exact ⟨hreject, rfl⟩
    · rintro ⟨hreject, rfl⟩
      have hrun := (hok t.cursor).mpr ⟨hreject, rfl⟩
      cases hrun
      rfl
  rw [body, bind_fst_eq_ok]
  simp only [reading_eq_ok spells_header hnil]
  constructor
  · rintro ⟨⟨strategy, length⟩, s, ⟨bs, ⟨hmax, rfl⟩, hheader, rfl⟩, h⟩
    dsimp only at h hmax hheader
    split at h
    · cases h
    · next havailable =>
        obtain ⟨_, s, hpayload, h⟩ := bind_fst_eq_ok.mp h
        obtain ⟨_, t, hfin, h⟩ := bind_fst_eq_ok.mp h
        obtain ⟨text', rfl, hcarries, hbs, rfl⟩ := (payload_eq_ok hheader.after).mp hpayload
        obtain ⟨hreject, rfl⟩ := hfinish.mp hfin
        rw [get_bind_run, List.nil_append, fromUtf8_toUtf8] at h
        cases h
        obtain ⟨rest, hinput⟩ := here_new.mp ((Tape.here_append _ _ _).mpr ⟨hheader, hbs⟩)
        refine ⟨strategy, rest, hmax, Nat.le_of_not_lt havailable, hcarries, hinput, ?_⟩
        intro htrailing
        refine (hend hinput).mp ?_
        have h := hreject htrailing
        rwa [Tape.advance_advance, ← List.length_append] at h
  · rintro ⟨strategy, rest, hmax, havailable, hcarries, hinput, hrest⟩
    have hhere : Tape.Here (Cursor.new input) ((strategy.tag :: encodeVarintLe (toUtf8 text).length)
        ++ stringPayload strategy (toUtf8 text)) := here_new.mpr ⟨rest, hinput⟩
    obtain ⟨hheader, hbs⟩ := (Tape.here_append _ _ _).mp hhere
    refine ⟨(strategy, (toUtf8 text).length), _, ⟨_, ⟨hmax, rfl⟩, hheader, rfl⟩, ?_⟩
    dsimp only
    rw [if_neg (Nat.not_lt.mpr havailable)]
    refine bind_fst_eq_ok.mpr ⟨(), _, (payload_eq_ok hheader.after).mpr
      ⟨text, rfl, hcarries, hbs, rfl⟩, bind_fst_eq_ok.mpr ⟨(), _, hfinish.mpr ⟨?_, rfl⟩, ?_⟩⟩
    · intro htrailing
      rw [Tape.advance_advance, ← List.length_append]
      exact (hend hinput).mpr (hrest htrailing)
    · rw [get_bind_run, List.nil_append, fromUtf8_toUtf8]
      rfl

end StringDecoding

/-- What the decoder into an output accepts, and the string it hands out. -/
lemma decodeStringIntoSlice_eq_ok {output : List UInt8} {text : String} :
    (decodeStringIntoSlice c input output).1 = .ok text ↔
      (∀ limit, c.base.limit = some limit → input.elems.length ≤ limit) ∧
        ∃ strategy rest, (toUtf8 text).length ≤ u64Max ∧ (toUtf8 text).length ≤ output.length ∧
          Carries strategy (toUtf8 text) ∧
          input.elems = stringFrame strategy (toUtf8 text) ++ rest ∧
          (c.base.trailing = .reject → rest = []) := by
  refine bind_fst_eq_ok.trans ?_
  simp only [call_run, Prod.mk.injEq, Config.enforceByteLimit_eq_ok]
  constructor
  · rintro ⟨_, _, ⟨hlimit, rfl⟩, h⟩
    exact ⟨hlimit, StringDecoding.body_eq_ok.mp h⟩
  · rintro ⟨hlimit, h⟩
    exact ⟨(), output, ⟨hlimit, rfl⟩, StringDecoding.body_eq_ok.mpr h⟩

end Decoding

/-! ## Every input -/

/-- Every run of `m` returns. -/
def Returns {σ α : Type} (m : Act σ Error α) : Prop := ∀ s, (m s).1.Returned

namespace Returns

variable {σ α γ : Type}

lemma bind {m : Act σ Error α} {f : α → Act σ Error γ} (hm : Returns m) (hf : ∀ a, Returns (f a)) :
    Returns (m >>= f) :=
  fun s => bind_returned_iff.mpr ⟨hm s, fun a t _ => hf a t⟩

lemma pure (a : α) : Returns (Pure.pure a : Act σ Error α) := fun _ => trivial

lemma throw (e : Error) : Returns (Act.throw e : Act σ Error α) := fun _ => trivial

lemma call {o : Outcome Error α} (h : o.Returned) : Returns (Act.call o : Act σ Error α) :=
  fun _ => h

lemma okOr (o : Option α) (e : Error) : Returns (Act.okOr o e : Act σ Error α) := by
  cases o with
  | none => exact throw e
  | some a => exact pure a

lemma get : Returns (Act.get : Act σ Error σ) := fun _ => trivial

lemma modify (f : σ → σ) : Returns (Act.modify f : Act σ Error Unit) := fun _ => trivial

lemma ite {c : Prop} [Decidable c] {m n : Act σ Error α} (hm : Returns m) (hn : Returns n) :
    Returns (if c then m else n) := by
  split
  · exact hm
  · exact hn

end Returns

/-- What is taken is a part of the input. -/
lemma take_of_ok {length : ℕ} {s t : Cursor} {bytes : List UInt8}
    (h : take length s = (.ok bytes, t)) :
    bytes.length = length ∧ bytes.length ≤ s.input.elems.length := by
  rw [take, get_bind_run] at h
  obtain ⟨stop, u, hadd, hrest⟩ := bind_eq_ok.mp h
  obtain ⟨hadd, rfl⟩ := okOr_eq_ok.mp hadd
  obtain ⟨part, v, hpart, hpure⟩ := bind_eq_ok.mp hrest
  obtain ⟨hpart, rfl⟩ := okOr_eq_ok.mp hpart
  rw [modify_bind_run, pure_run, Prod.mk.injEq, Outcome.ok.injEq] at hpure
  obtain ⟨rfl, -⟩ := hpure
  have hstop := checkedAdd_eq_some hadd
  have hlen := slice_length hpart
  have hend := (slice_eq_some.mp hpart).2.1
  omega

lemma returns_take (length : ℕ) : Returns (take length) :=
  Returns.get.bind fun _ => (Returns.okOr _ _).bind fun _ => (Returns.okOr _ _).bind fun _ =>
    (Returns.modify _).bind fun _ => Returns.pure _

lemma returns_byte : Returns byte := by
  intro s
  refine bind_returned_iff.mpr ⟨returns_take 1 s, fun bytes t h => ?_⟩
  obtain ⟨first, rfl⟩ := List.length_eq_one_iff.mp (take_of_ok h).1
  trivial

lemma returns_payload (width minimum : ℕ) : Returns (payload width minimum) := by
  refine Returns.bind ?_ fun value => (Returns.throw _).ite (Returns.pure value)
  intro s
  rw [number, map_returned_iff]
  exact returns_take width s

lemma returns_varint : Returns varint :=
  returns_byte.bind fun _ => (Returns.pure _).ite ((returns_payload _ _).ite
    ((returns_payload _ _).ite ((returns_payload _ _).ite ((returns_payload _ _).ite
      (Returns.throw _)))))

lemma returns_usizeVarint : Returns usizeVarint :=
  returns_varint.bind fun _ => (Returns.pure _).ite (Returns.throw _)

lemma returns_finish (trailing : TrailingBytes) : Returns (finish trailing) :=
  Returns.get.bind fun _ => (Returns.throw _).ite (Returns.pure ())

lemma returns_takeSlice (length : ℕ) : Returns (takeSlice length) := by
  intro s
  refine bind_returned_iff.mpr ⟨returns_take length s, fun bytes t h => ?_⟩
  have hle : 1 * bytes.length ≤ isizeMax := by
    have hinput := s.input.length_le
    have hpart := (take_of_ok h).2
    omega
  rw [dif_pos hle]
  trivial

lemma returns_takePacked (length : ℕ) : Returns (takePacked length) :=
  (Returns.okOr _ _).bind fun _ => (Returns.okOr _ _).bind fun _ =>
    (returns_takeSlice _).bind fun _ => Returns.pure _

lemma returns_read (width : ℕ) : Returns (BitReader.read width) :=
  (Returns.throw _).ite (Returns.get.bind fun _ => (Returns.okOr _ _).bind fun _ =>
    (Returns.throw _).ite ((Returns.modify _).bind fun _ => Returns.pure _))

lemma returns_pushAscii (length : ℕ) (value : String) : Returns (pushAscii length value) := by
  induction length generalizing value with
  | zero => exact Returns.pure value
  | succ length ih => exact (returns_read 7).bind fun bits => ih _

lemma validateAsciiPadding_returned (bytes : List UInt8) (meaningfulBits : ℕ) :
    (validateAsciiPadding bytes meaningfulBits).Returned := by
  rw [validateAsciiPadding]
  split <;> trivial

lemma returns_stringBorrowed : Returns stringBorrowed := by
  refine returns_byte.bind fun tag => returns_usizeVarint.bind fun length =>
    (Returns.okOr _ _).bind fun strategy => ?_
  cases strategy with
  | rawUtf8 =>
      exact (returns_take length).bind fun bytes => (Returns.okOr _ _).bind fun value =>
        Returns.pure _
  | ascii7 =>
      exact (returns_takePacked length).bind fun part =>
        (Returns.call (Outcome.require_returned _ _)).bind fun _ =>
          (Returns.call (returns_pushAscii length "" _)).bind fun value =>
            (Returns.call (validateAsciiPadding_returned _ _)).bind fun _ => Returns.pure _

namespace StringDecoding

lemma returns_reading {α : Type} {m : Act Cursor Error α} (h : Returns m) : Returns (reading m) :=
  fun s => h s.cursor

lemma returns_fillSlots (length : ℕ) (reader : BitReader) : Returns (fillSlots length reader) := by
  induction length generalizing reader with
  | zero => exact Returns.pure ()
  | succ length ih =>
      exact (Returns.call (returns_read 7 reader)).bind fun bits =>
        (Returns.modify _).bind fun _ => ih _

lemma returns_header : Returns header :=
  returns_byte.bind fun _ => (Returns.okOr _ _).bind fun _ => returns_usizeVarint.bind fun _ =>
    Returns.pure _

lemma returns_payload (strategy : StringStrategy) (length : ℕ) :
    Returns (payload strategy length) := by
  cases strategy with
  | rawUtf8 =>
      exact (returns_reading (returns_take length)).bind fun bytes => (Returns.okOr _ _).bind
        fun _ => Returns.modify _
  | ascii7 =>
      exact (returns_reading (returns_takePacked length)).bind fun part =>
        (returns_fillSlots length _).bind fun _ =>
          Returns.call (validateAsciiPadding_returned _ _)

lemma returns_body (c : AdaptiveConfig) (available : ℕ) : Returns (body c available) :=
  (returns_reading returns_header).bind fun _ => (Returns.throw _).ite
    ((returns_payload _ _).bind fun _ => (returns_reading (returns_finish _)).bind fun _ =>
      Returns.get.bind fun _ => Returns.okOr _ _)

end StringDecoding

lemma enforceByteLimit_returned (c : Config) (length : ℕ) :
    (c.enforceByteLimit length).Returned := by
  rw [Config.enforceByteLimit]
  cases c.limit with
  | none => trivial
  | some limit =>
      dsimp only
      split <;> trivial

lemma decodeStringBorrowed_returned (c : AdaptiveConfig) (input : Slice 1 UInt8) :
    (decodeStringBorrowed c input).Returned :=
  Outcome.bind_returned (enforceByteLimit_returned c.base _) fun _ =>
    (returns_stringBorrowed.bind fun _ => (returns_finish _).bind fun _ => Returns.pure _)
      (Cursor.new input)

lemma returns_decodeStringIntoSlice (c : AdaptiveConfig) (input : Slice 1 UInt8) :
    Returns (decodeStringIntoSlice c input) :=
  (Returns.call (enforceByteLimit_returned c.base _)).bind fun _ output =>
    StringDecoding.returns_body c output.length _

/-- Adaptive strings.  A string whose raw frame is within the limit is encoded, and what is encoded
comes back.  On every input, the decoder that borrows and the decoder into an output of the
declared length have the same string, or both fail. -/
theorem strings_roundTrip (backend : Backend) (c : AdaptiveConfig) :
    (∀ value : Str,
      (7 * value.bytes.length + 7 ≤ u64Max →
        (∀ limit, c.base.limit = some limit →
          (stringFrame .rawUtf8 value.bytes).length ≤ limit) →
        ∃ bytes, encodeString backend c value = .ok bytes) ∧
      ∀ bytes, encodeString backend c value = .ok bytes →
        ∃ input : Slice 1 UInt8, input.elems = bytes ∧ decodeString c input = .ok value.text) ∧
    ∀ (input : Slice 1 UInt8) (output : List UInt8),
      (∀ strategy length, (StringDecoding.header (Cursor.new input)).1 = .ok (strategy, length) →
        length ≤ output.length) →
      (∃ text, decodeString c input = .ok text ∧
        (decodeStringIntoSlice c input output).1 = .ok text) ∨
      (∃ e, decodeStringBorrowed c input = .err e) ∧
        ∃ e, (decodeStringIntoSlice c input output).1 = .err e := by
  refine ⟨fun value => ⟨?_, ?_⟩, ?_⟩
  · intro hmax hlimit
    obtain ⟨strategy, size, required, hlayout, hsize⟩ := @stringLayout_ok backend value c.mode hmax
    obtain ⟨-, rfl, rfl⟩ := stringLayout_of_ok hlayout
    have hraw : (stringFrame strategy value.bytes).length ≤
        (stringFrame .rawUtf8 value.bytes).length := by
      rw [length_stringFrame, length_stringFrame]
      exact Nat.add_le_add_left hsize _
    have hvarint := varintSize_le value.bytes.length
    have hframe : (stringFrame strategy value.bytes).length ≤ isizeMax := by
      refine hraw.trans ?_
      rw [length_stringFrame, stringPayload, isizeMax]
      rw [u64Max] at hmax
      omega
    have hlimited : limitedStringLayout backend c value = .ok (strategy, _, _) :=
      limitedStringLayout_eq_ok.mpr ⟨hlayout, fun limit h => hraw.trans (hlimit limit h)⟩
    exact ⟨_, encodeString_eq_ok.mpr ⟨_, _, _, hlimited, hframe, rfl⟩⟩
  · intro bytes hencode
    obtain ⟨strategy, size, required, hlimited, hframe, rfl⟩ := encodeString_eq_ok.mp hencode
    obtain ⟨hlayout, hlimit⟩ := limitedStringLayout_eq_ok.mp hlimited
    obtain ⟨hcarries, -, rfl⟩ := stringLayout_of_ok hlayout
    have hslice : 1 * (stringFrame strategy value.bytes).length ≤ isizeMax := by
      rwa [one_mul]
    have hmax : (toUtf8 value.text).length ≤ u64Max := value.length_le.trans (by decide)
    have hdecode : decodeStringBorrowed c ⟨stringFrame strategy value.bytes, hslice⟩ =
        .ok (strategy.cow value.text) :=
      decodeStringBorrowed_eq_ok.mpr ⟨hlimit, strategy, value.text, [], hmax, hcarries,
        (List.append_nil _).symm, fun _ => rfl, rfl⟩
    refine ⟨⟨_, hslice⟩, rfl, ?_⟩
    rw [decodeString, hdecode, Outcome.ok_bind, intoOwned_cow]
    rfl
  · intro input output hlength
    have hborrowed := decodeStringBorrowed_returned c input
    have hinto := returns_decodeStringIntoSlice c input output
    cases hvalue : decodeStringBorrowed c input with
    | ok value =>
        obtain ⟨hlimit, strategy, text, rest, hmax, hcarries, hinput, hrest, rfl⟩ :=
          decodeStringBorrowed_eq_ok.mp hvalue
        have hheader : (StringDecoding.header (Cursor.new input)).1 =
            .ok (strategy, (toUtf8 text).length) := by
          have hhere : Tape.Here (Cursor.new input)
              (strategy.tag :: encodeVarintLe (toUtf8 text).length) :=
            here_new.mpr ⟨stringPayload strategy (toUtf8 text) ++ rest, by
              rw [hinput, stringFrame, List.cons_append, List.cons_append, List.append_assoc]⟩
          have hread := (StringDecoding.spells_header (Cursor.new input) trivial hhere.nil
            (strategy, (toUtf8 text).length) _).mpr ⟨_, ⟨hmax, rfl⟩, hhere, rfl⟩
          rw [hread]
        refine .inl ⟨text, ?_, decodeStringIntoSlice_eq_ok.mpr ⟨hlimit, strategy, rest, hmax,
          hlength strategy _ hheader, hcarries, hinput, hrest⟩⟩
        rw [decodeString, hvalue, Outcome.ok_bind, intoOwned_cow]
        rfl
    | err e =>
        refine .inr ⟨⟨e, rfl⟩, ?_⟩
        cases htext : (decodeStringIntoSlice c input output).1 with
        | ok text =>
            -- what the other decoder accepts the borrowing decoder accepts
            obtain ⟨hlimit, strategy, rest, hmax, -, hcarries, hinput, hrest⟩ :=
              decodeStringIntoSlice_eq_ok.mp htext
            have hok := decodeStringBorrowed_eq_ok.mpr
              ⟨hlimit, strategy, text, rest, hmax, hcarries, hinput, hrest, rfl⟩
            rw [hvalue] at hok
            cases hok
        | err e' => exact ⟨e', rfl⟩
        | panic =>
            rw [htext] at hinto
            exact hinto.elim
        | diverge =>
            rw [htext] at hinto
            exact hinto.elim
    | panic =>
        rw [hvalue] at hborrowed
        exact hborrowed.elim
    | diverge =>
        rw [hvalue] at hborrowed
        exact hborrowed.elim

lemma length_letter : 1 * [(0 : UInt8), 1, 97].length ≤ isizeMax := by decide

/-- The raw frame of one letter. -/
def letterInput : Slice 1 UInt8 := ⟨[0, 1, 97], length_letter⟩

theorem strings_roundTrip_letter :
    (∃ text, decodeString ⟨Config.standard, .exact⟩ letterInput = .ok text ∧
      (decodeStringIntoSlice ⟨Config.standard, .exact⟩ letterInput [0]).1 = .ok text) ∨
    (∃ e, decodeStringBorrowed ⟨Config.standard, .exact⟩ letterInput = .err e) ∧
      ∃ e, (decodeStringIntoSlice ⟨Config.standard, .exact⟩ letterInput [0]).1 = .err e := by
  refine (strings_roundTrip .scalar ⟨Config.standard, .exact⟩).2 letterInput [0] ?_
  intro strategy length h
  have hheader : (StringDecoding.header (Cursor.new letterInput)).1 = .ok (.rawUtf8, 1) := rfl
  rw [hheader] at h
  cases h
  exact Nat.le_refl 1

end RustBinary.Adaptive
