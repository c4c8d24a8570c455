import RustBinary.Bitpack.Scalar

/-!
# Bit-packed values and their bytes

A value that fits has a bit string: the words of its fields one behind the other, and the index of
the variant in front of an enum.  The derived code packs exactly this bit string and unpacks exactly
the bit strings of values that fit, and bytes are accepted when they are the bit string filled with
zeros.
-/

namespace RustBinary.Bitpack

open Lib Lib.Act Lib.Tape

/-! ## Bit strings of values -/

/-- The index of the variant of a value. -/
def Variants.index : (variants : Variants) → variants.Value → ℕ
  | .cons _ _, .inl _ => 0
  | .cons _ rest, .inr value => rest.index value + 1

mutual

def PackType.bits : (t : PackType) → t.Value → List Bool
  | .scalar s, value => toBits s.maxBits (s.word value s.maxBits)
  | .struct fields, values => fields.bits values
  | .enum variants, value =>
      toBits variants.tagBits (variants.index value) ++ variants.bits value

def Fields.bits : (fields : Fields) → fields.Values → List Bool
  | .nil, _ => []
  | .declared s width rest, (value, values) => toBits width (s.word value width) ++ rest.bits values
  | .nested t rest, (value, values) => t.bits value ++ rest.bits values

/-- The bits behind the index. -/
def Variants.bits : (variants : Variants) → variants.Value → List Bool
  | .cons fields _, .inl values => fields.bits values
  | .cons _ rest, .inr value => rest.bits value

end

mutual

/-- The fields of a value fit into their declared widths. -/
def PackType.Fits : (t : PackType) → t.Value → Prop
  | .scalar _, _ => True
  | .struct fields, values => fields.Fits values
  | .enum variants, value => variants.Fits value

def Fields.Fits : (fields : Fields) → fields.Values → Prop
  | .nil, _ => True
  | .declared s width rest, (value, values) => s.Fits value width ∧ rest.Fits values
  | .nested t rest, (value, values) => t.Fits value ∧ rest.Fits values

def Variants.Fits : (variants : Variants) → variants.Value → Prop
  | .cons fields _, .inl values => fields.Fits values
  | .cons _ rest, .inr value => rest.Fits value

end

/-! ## Scalars -/

namespace Scalar

/-- The width of a primitive type has room for each of its values. -/
lemma fits_maxBits (s : Scalar) (value : s.Value) : s.Fits value s.maxBits := by
  have hpow : ∀ w : IntWidth, ((2 ^ (w.bits - 1) : ℕ) : ℤ) = 2 ^ (w.bits - 1) := by
    intro w
    push_cast
    rfl
  cases s with
  | bool => rfl
  | unsigned w => exact ⟨by rw [maxBits]; have := w.bits_le; omega, le_refl _, BitVec.isLt value⟩
  | signed w =>
      refine ⟨?_, le_refl _, ?_, ?_⟩
      · have := w.bits_le
        rw [maxBits]
        omega
      · exact BitVec.le_toInt value
      · exact BitVec.toInt_lt

variable {s : Scalar} {value : s.Value} {width : ℕ}

/-- Only values that fit are encoded. -/
lemma fits_of_encodeBits {n : ℕ} (h : s.encodeBits value width = .ok n) : s.Fits value width := by
  cases s with
  | bool =>
      rw [encodeBits] at h
      split at h
      · cases h
      · next hwidth => exact not_not.mp hwidth
  | unsigned w =>
      have hvalue := BitVec.isLt value
      rw [encodeBits] at h
      split at h
      · cases h
      split at h
      · cases h
      · next hwidth hrange =>
          refine ⟨by omega, by omega, ?_⟩
          by_cases hlt : width < 128
          · exact Nat.lt_of_not_le fun hle => hrange ⟨hlt, hle⟩
          · have hbits := w.bits_le
            have heq : width = w.bits := by omega
            rwa [heq]
  | signed w =>
      rw [encodeBits] at h
      split at h
      · cases h
      dsimp only at h
      split at h
      · cases h
      · next hwidth hrange => exact ⟨by omega, by omega, by omega, by omega⟩

end Scalar

/-! ## Packing -/

lemma Packs.encoded {o : Outcome Error ℕ} {word : ℕ} {m : ℕ → Act BitWriter Error Unit}
    {bits : List Bool} (ho : o = .ok word) (hm : Packs (m word) bits) :
    Packs (call o >>= m) bits := by
  intro w written room h hroom hmax
  rw [ho, bind_of_ok (call_run _ w)]
  exact hm w written room h hroom hmax

lemma Scalar.packs_declared {s : Scalar} {value : s.Value} {width : ℕ} (h : s.Fits value width) :
    Packs (call (s.encodeBits value width) >>= fun word => BitWriter.write word width)
      (toBits width (s.word value width)) := by
  obtain ⟨hencode, hlt⟩ := encodeBits_of_fits h
  exact Packs.encoded hencode (packs_write h.width_le.2 hlt)

lemma Scalar.packs (s : Scalar) (value : s.Value) :
    Packs (s.pack value) (toBits s.maxBits (s.word value s.maxBits)) := by
  have h := packs_declared (s.fits_maxBits value)
  cases s with
  | bool => exact packs_write (by decide) (Bool.toNat_lt _)
  | unsigned w => exact h
  | signed w => exact h

/-- The index of a variant fits in front of it. -/
lemma Variants.index_lt (variants : Variants) (value : variants.Value) :
    variants.index value < variants.length := by
  match variants, value with
  | .cons _ _, .inl _ =>
      rw [index, length]
      exact Nat.succ_pos _
  | .cons _ rest, .inr value =>
      rw [index, length]
      exact Nat.succ_lt_succ (rest.index_lt value)

lemma Variants.length_le (variants : Variants) : variants.length ≤ 2 ^ variants.tagBits := by
  rw [tagBits]
  split
  · next hle => exact hle
  · have := Nat.lt_size_self (variants.length - 1)
    omega

lemma Variants.tagBits_le {variants : Variants} (h : variants.length ≤ u64Max) :
    variants.tagBits ≤ 64 := by
  rw [tagBits]
  split
  · exact Nat.zero_le _
  · rw [Nat.size_le]
    rw [u64Max] at h
    omega

lemma Variants.packs_tag {variants : Variants} (h : variants.length ≤ u64Max)
    (value : variants.Value) :
    Packs (BitWriter.write (variants.index value) variants.tagBits)
      (toBits variants.tagBits (variants.index value)) :=
  packs_write ((tagBits_le h).trans (by decide))
    (lt_of_lt_of_le (variants.index_lt value) variants.length_le)

mutual

lemma PackType.packs : (t : PackType) → t.Accepted → (value : t.Value) → t.Fits value →
    Packs (t.pack value) (t.bits value)
  | .scalar s, _, value, _ => s.packs value
  | .struct fields, haccepted, values, hfits => Fields.packs fields haccepted values hfits
  | .enum variants, haccepted, value, hfits => by
      have htag := Variants.packs_tag haccepted.2.1 value
      have := Variants.packs variants haccepted.2.2 variants.tagBits 0 value hfits
      rw [Nat.zero_add] at this
      exact this htag

lemma Fields.packs : (fields : Fields) → fields.Accepted → (values : fields.Values) →
    fields.Fits values → Packs (fields.pack values) (fields.bits values)
  | .nil, _, _, _ => Packs.pure
  | .declared s width rest, haccepted, (value, values), hfits => by
      have hvalue := Scalar.packs_declared hfits.1
      have hrest := Fields.packs rest haccepted.2.2 values hfits.2
      have := hvalue.bind hrest
      rwa [bind_assoc] at this
  | .nested t rest, haccepted, (value, values), hfits =>
      (PackType.packs t haccepted.1 value hfits.1).bind
        (Fields.packs rest haccepted.2 values hfits.2)

/-- The arm of a variant writes its index and packs its fields. -/
lemma Variants.packs : (variants : Variants) → variants.Accepted → (tagBits index : ℕ) →
    (value : variants.Value) → variants.Fits value →
    Packs (BitWriter.write (index + variants.index value) tagBits)
      (toBits tagBits (index + variants.index value)) →
    Packs (variants.pack tagBits index value)
      (toBits tagBits (index + variants.index value) ++ variants.bits value)
  | .cons fields _, haccepted, tagBits, index, .inl values, hfits => fun htag =>
      htag.bind (Fields.packs fields haccepted.1 values hfits)
  | .cons _ rest, haccepted, tagBits, index, .inr value, hfits => fun htag => by
      have hindex : index + (rest.index value + 1) = index + 1 + rest.index value := by omega
      have hrest := Variants.packs rest haccepted.2 tagBits (index + 1) value hfits
      rw [Variants.index, hindex] at htag ⊢
      exact hrest htag

end

/-! ## Unpacking -/

lemma Scalar.spells_declared (s : Scalar) (width : ℕ) :
    Spells Always (BitReader.read width >>= fun word => call (s.decodeBits word width))
      fun value bits => s.Fits value width ∧ bits = toBits width (s.word value width) := by
  refine (Spells.bind steady_always (spells_read width) fun word =>
    Spells.call (s.decodeBits word width)).congr fun value bits => ?_
  constructor
  · rintro ⟨word, xs, ys, ⟨-, hlt, rfl⟩, ⟨hdecode, rfl⟩, rfl⟩
    obtain ⟨hfits, rfl⟩ := (decodeBits_eq_ok hlt).mp hdecode
    exact ⟨hfits, List.append_nil _⟩
  · rintro ⟨hfits, rfl⟩
    obtain ⟨-, hlt⟩ := encodeBits_of_fits hfits
    exact ⟨_, _, [], ⟨hfits.width_le.2, hlt, rfl⟩, ⟨(decodeBits_eq_ok hlt).mpr ⟨hfits, rfl⟩, rfl⟩,
      (List.append_nil _).symm⟩

lemma Scalar.spells (s : Scalar) :
    Spells Always s.unpack fun value bits => bits = toBits s.maxBits (s.word value s.maxBits) := by
  have hdeclared :
      Spells Always (BitReader.read s.maxBits >>= fun word => call (s.decodeBits word s.maxBits))
        fun value bits => bits = toBits s.maxBits (s.word value s.maxBits) :=
    (s.spells_declared s.maxBits).congr fun value bits =>
      ⟨fun h => h.2, fun h => ⟨s.fits_maxBits value, h⟩⟩
  cases s with
  | unsigned w => exact hdeclared
  | signed w => exact hdeclared
  | bool =>
      refine (Spells.bind steady_always (spells_read 1) fun word =>
        Spells.pure (word != 0)).congr fun value bits => ?_
      constructor
      · rintro ⟨word, xs, ys, ⟨-, hlt, rfl⟩, ⟨rfl, rfl⟩, rfl⟩
        obtain rfl | rfl : word = 0 ∨ word = 1 := by omega
        · rfl
        · rfl
      · intro h
        refine ⟨Bool.toNat value, _, [], ⟨by decide, Bool.toNat_lt _, h⟩, ⟨?_, rfl⟩,
          (List.append_nil _).symm⟩
        cases value with
        | false => rfl
        | true => rfl

mutual

lemma PackType.spells : (t : PackType) → t.Accepted →
    Spells Always t.unpack fun value bits => t.Fits value ∧ bits = t.bits value
  | .scalar s, _ => s.spells.congr fun _ _ => ⟨fun h => ⟨trivial, h⟩, fun h => h.2⟩
  | .struct fields, haccepted => Fields.spells fields haccepted
  | .enum variants, haccepted => by
      have htag := Variants.tagBits_le haccepted.2.1
      refine (Spells.bind steady_always (spells_read variants.tagBits) fun tag =>
        Variants.spells variants haccepted.2.2 tag).congr fun value bits => ?_
      constructor
      · rintro ⟨tag, xs, ys, ⟨-, -, rfl⟩, ⟨hfits, rfl, rfl⟩, rfl⟩
        exact ⟨hfits, rfl⟩
      · rintro ⟨hfits, rfl⟩
        exact ⟨_, _, _, ⟨htag.trans (by decide),
          lt_of_lt_of_le (variants.index_lt value) variants.length_le, rfl⟩, ⟨hfits, rfl, rfl⟩, rfl⟩

lemma Fields.spells : (fields : Fields) → fields.Accepted →
    Spells Always fields.unpack fun values bits => fields.Fits values ∧ bits = fields.bits values
  | .nil, _ => (Spells.pure ()).congr fun _ _ =>
      ⟨fun h => ⟨trivial, h.2⟩, fun h => ⟨rfl, h.2⟩⟩
  | .declared s width rest, haccepted => by
      have h := Spells.bind steady_always (s.spells_declared width) fun value =>
        Spells.bind steady_always (Fields.spells rest haccepted.2.2) fun values =>
          Spells.pure (value, values)
      rw [bind_assoc] at h
      refine h.congr fun values bits => ?_
      constructor
      · rintro ⟨value, xs, ys, ⟨hvalue, rfl⟩, ⟨rest, zs, ws, ⟨hrest, rfl⟩, ⟨rfl, rfl⟩, rfl⟩, rfl⟩
        rw [List.append_nil]
        exact ⟨⟨hvalue, hrest⟩, rfl⟩
      · obtain ⟨value, values⟩ := values
        rintro ⟨⟨hvalue, hrest⟩, rfl⟩
        exact ⟨value, _, _, ⟨hvalue, rfl⟩, ⟨values, _, [], ⟨hrest, rfl⟩, ⟨rfl, rfl⟩,
          (List.append_nil _).symm⟩, rfl⟩
  | .nested t rest, haccepted => by
      have h := Spells.bind steady_always (PackType.spells t haccepted.1) fun value =>
        Spells.bind steady_always (Fields.spells rest haccepted.2) fun values =>
          Spells.pure (value, values)
      refine h.congr fun values bits => ?_
      constructor
      · rintro ⟨value, xs, ys, ⟨hvalue, rfl⟩, ⟨rest, zs, ws, ⟨hrest, rfl⟩, ⟨rfl, rfl⟩, rfl⟩, rfl⟩
        rw [List.append_nil]
        exact ⟨⟨hvalue, hrest⟩, rfl⟩
      · obtain ⟨value, values⟩ := values
        rintro ⟨⟨hvalue, hrest⟩, rfl⟩
        exact ⟨value, _, _, ⟨hvalue, rfl⟩, ⟨values, _, [], ⟨hrest, rfl⟩, ⟨rfl, rfl⟩,
          (List.append_nil _).symm⟩, rfl⟩

lemma Variants.spells : (variants : Variants) → variants.Accepted → (tag : ℕ) →
    Spells Always (variants.unpack tag) fun value bits =>
      variants.Fits value ∧ variants.index value = tag ∧ bits = variants.bits value
  | .nil, _, tag => by
      refine (Spells.never ?_).congr fun value _ => nomatch value
      intro s _ value
      nomatch value
  | .cons fields rest, haccepted, 0 => by
      refine (Spells.bind steady_always (Fields.spells fields haccepted.1) fun values =>
        Spells.pure (Sum.inl values)).congr fun value bits => ?_
      constructor
      · rintro ⟨values, xs, ys, ⟨hfits, rfl⟩, ⟨rfl, rfl⟩, rfl⟩
        exact ⟨hfits, rfl, List.append_nil _⟩
      · rintro ⟨hfits, hindex, rfl⟩
        cases value with
        | inl values => exact ⟨values, _, [], ⟨hfits, rfl⟩, ⟨rfl, rfl⟩, (List.append_nil _).symm⟩
        | inr value => cases hindex
  | .cons fields rest, haccepted, tag + 1 => by
      refine (Spells.bind steady_always (Variants.spells rest haccepted.2 tag) fun value =>
        Spells.pure (Sum.inr value)).congr fun value bits => ?_
      constructor
      · rintro ⟨value, xs, ys, ⟨hfits, rfl, rfl⟩, ⟨rfl, rfl⟩, rfl⟩
        exact ⟨hfits, rfl, List.append_nil _⟩
      · rintro ⟨hfits, hindex, rfl⟩
        cases value with
        | inl values => cases hindex
        | inr value =>
            exact ⟨value, _, [], ⟨hfits, Nat.succ.inj hindex, rfl⟩, ⟨rfl, rfl⟩,
              (List.append_nil _).symm⟩

end

/-! ## Lengths -/

mutual

/-- A value has at most as many bits as its place in memory. -/
lemma PackType.length_bits_le_size : (t : PackType) → (value : t.Value) → t.Fits value →
    (t.bits value).length ≤ 8 * t.size
  | .scalar s, value, _ => by
      have h := (s.fits_maxBits value).width_le.1
      rw [PackType.bits, length_toBits, PackType.size]
      exact h
  | .struct fields, values, hfits => Fields.length_bits_le_size fields values hfits
  | .enum variants, value, hfits => by
      have h := Variants.length_bits_le_size variants value hfits
      rw [PackType.bits, List.length_append, length_toBits, PackType.size]
      omega

lemma Fields.length_bits_le_size : (fields : Fields) → (values : fields.Values) →
    fields.Fits values → (fields.bits values).length ≤ 8 * fields.size
  | .nil, _, _ => Nat.zero_le _
  | .declared s width rest, (value, values), hfits => by
      have h := hfits.1.width_le.1
      have hrest := Fields.length_bits_le_size rest values hfits.2
      rw [Fields.bits, List.length_append, length_toBits, Fields.size]
      omega
  | .nested t rest, (value, values), hfits => by
      have h := PackType.length_bits_le_size t value hfits.1
      have hrest := Fields.length_bits_le_size rest values hfits.2
      rw [Fields.bits, List.length_append, Fields.size]
      omega

lemma Variants.length_bits_le_size : (variants : Variants) → (value : variants.Value) →
    variants.Fits value → (variants.bits value).length ≤ 8 * variants.size
  | .cons fields rest, .inl values, hfits => by
      have h := Fields.length_bits_le_size fields values hfits
      have hmax := le_max_left fields.size rest.size
      rw [Variants.bits, Variants.size]
      omega
  | .cons fields rest, .inr value, hfits => by
      have h := Variants.length_bits_le_size rest value hfits
      have hmax := le_max_right fields.size rest.size
      rw [Variants.bits, Variants.size]
      omega

end

lemma bitpackMax_eq (m n : ℕ) : bitpackMax m n = max m n := by
  rw [bitpackMax]
  split <;> omega

lemma Variants.le_maximum (variants : Variants) (maximum : ℕ) :
    maximum ≤ variants.maximum maximum := by
  match variants with
  | .nil => exact le_refl _
  | .cons fields rest =>
      have h := rest.le_maximum (bitpackMax maximum (fields.bitCount 0))
      rw [bitpackMax_eq] at h
      rw [Variants.maximum, bitpackMax_eq]
      omega

mutual

/-- The derived count, which saturates, is at least the number of bits of a value. -/
lemma PackType.length_bits_le_maxBits : (t : PackType) → (value : t.Value) →
    min (t.bits value).length u64Max ≤ t.maxBits
  | .scalar s, value => by
      rw [PackType.bits, length_toBits, PackType.maxBits]
      exact min_le_left _ _
  | .struct fields, values => by
      have h := Fields.length_bits_le_bitCount fields values 0
      rw [Nat.zero_add] at h
      exact h
  | .enum variants, value => by
      have h := Variants.length_bits_le_maximum variants value 0
      rw [PackType.bits, List.length_append, length_toBits, PackType.maxBits, saturatingAdd]
      omega

lemma Fields.length_bits_le_bitCount : (fields : Fields) → (values : fields.Values) →
    (total : ℕ) → min (total + (fields.bits values).length) u64Max ≤ fields.bitCount total
  | .nil, _, total => min_le_left _ _
  | .declared s width rest, (value, values), total => by
      have h := Fields.length_bits_le_bitCount rest values (saturatingAdd total width)
      rw [Fields.bits, List.length_append, length_toBits, Fields.bitCount]
      rw [saturatingAdd] at h ⊢
      omega
  | .nested t rest, (value, values), total => by
      have hvalue := PackType.length_bits_le_maxBits t value
      have h := Fields.length_bits_le_bitCount rest values (saturatingAdd total t.maxBits)
      rw [Fields.bits, List.length_append, Fields.bitCount]
      rw [saturatingAdd] at h ⊢
      omega

lemma Variants.length_bits_le_maximum : (variants : Variants) → (value : variants.Value) →
    (maximum : ℕ) → min (variants.bits value).length u64Max ≤ variants.maximum maximum
  | .cons fields rest, .inl values, maximum => by
      have h := Fields.length_bits_le_bitCount fields values 0
      have hle := rest.le_maximum (bitpackMax maximum (fields.bitCount 0))
      rw [Nat.zero_add] at h
      rw [bitpackMax_eq] at hle
      rw [Variants.bits, Variants.maximum, bitpackMax_eq]
      omega
  | .cons fields rest, .inr value, maximum =>
      Variants.length_bits_le_maximum rest value (bitpackMax maximum (fields.bitCount 0))

end

/-! ## Only values that fit are packed -/

/-- Where `m` succeeds, `p` is true and `m` has written `n` bits. -/
def Measures (m : Act BitWriter Error Unit) (p : Prop) (n : ℕ) : Prop :=
  ∀ w w', m w = (.ok (), w') → p ∧ w'.position = w.position + n

lemma Measures.bind {m k : Act BitWriter Error Unit} {p q : Prop} {i j : ℕ} (hm : Measures m p i)
    (hk : Measures k q j) : Measures (m >>= fun _ => k) (p ∧ q) (i + j) := by
  intro w u h
  obtain ⟨_, v, hfirst, hsecond⟩ := bind_eq_ok.mp h
  obtain ⟨hp, hv⟩ := hm w v hfirst
  obtain ⟨hq, hu⟩ := hk v u hsecond
  exact ⟨⟨hp, hq⟩, by omega⟩

lemma measures_write (value width : ℕ) : Measures (BitWriter.write value width) True width := by
  intro w u h
  rw [BitWriter.write] at h
  split at h
  · simp at h
  split at h
  · simp at h
  rw [get_bind_run] at h
  obtain ⟨stop, t, hstop, h⟩ := bind_eq_ok.mp h
  obtain ⟨hstop, rfl⟩ := okOr_eq_ok.mp hstop
  rw [checkedAdd, Option.ite_none_right_eq_some, Option.some.injEq] at hstop
  obtain ⟨-, rfl⟩ := hstop
  split at h
  · simp at h
  · rw [modify_run, Prod.mk.injEq] at h
    obtain ⟨-, rfl⟩ := h
    exact ⟨trivial, rfl⟩

lemma Scalar.measures_declared (s : Scalar) (value : s.Value) (width : ℕ) :
    Measures (call (s.encodeBits value width) >>= fun word => BitWriter.write word width)
      (s.Fits value width) width := by
  intro w u h
  obtain ⟨word, v, hfirst, hsecond⟩ := bind_eq_ok.mp h
  rw [call_run, Prod.mk.injEq] at hfirst
  obtain ⟨hencode, rfl⟩ := hfirst
  exact ⟨fits_of_encodeBits hencode, (measures_write word width w u hsecond).2⟩

lemma Scalar.measures (s : Scalar) (value : s.Value) :
    Measures (s.pack value) True s.maxBits := by
  intro w u h
  cases s with
  | bool => exact measures_write _ _ w u h
  | unsigned width => exact ⟨trivial, ((unsigned width).measures_declared value _ w u h).2⟩
  | signed width => exact ⟨trivial, ((signed width).measures_declared value _ w u h).2⟩

mutual

lemma PackType.measures : (t : PackType) → (value : t.Value) →
    Measures (t.pack value) (t.Fits value) (t.bits value).length
  | .scalar s, value => by
      have h := s.measures value
      rwa [PackType.bits, length_toBits]
  | .struct fields, values => Fields.measures fields values
  | .enum variants, value => by
      have h := Variants.measures variants variants.tagBits 0 value
      rwa [PackType.bits, List.length_append, length_toBits]

lemma Fields.measures : (fields : Fields) → (values : fields.Values) →
    Measures (fields.pack values) (fields.Fits values) (fields.bits values).length
  | .nil, _ => by
      intro w u h
      obtain ⟨-, rfl⟩ := h
      exact ⟨trivial, rfl⟩
  | .declared s width rest, (value, values) => by
      have h := (s.measures_declared value width).bind (Fields.measures rest values)
      rw [bind_assoc] at h
      rwa [Fields.bits, List.length_append, length_toBits]
  | .nested t rest, (value, values) => by
      have h := (PackType.measures t value).bind (Fields.measures rest values)
      rwa [Fields.bits, List.length_append]

lemma Variants.measures : (variants : Variants) → (tagBits index : ℕ) → (value : variants.Value) →
    Measures (variants.pack tagBits index value) (variants.Fits value)
      (tagBits + (variants.bits value).length)
  | .cons fields _, tagBits, index, .inl values => by
      intro w u h
      obtain ⟨⟨-, hfits⟩, hposition⟩ :=
        ((measures_write index tagBits).bind (Fields.measures fields values)) w u h
      exact ⟨hfits, hposition⟩
  | .cons _ rest, tagBits, index, .inr value =>
      Variants.measures rest tagBits (index + 1) value

end

/-! ## Bytes -/

/-- The bit string at the start of an input. -/
lemma here_new {input : Slice 1 UInt8} {bits : List Bool} :
    Here (BitReader.new input) bits ↔
      bits ++ (unpack input.elems).drop bits.length = unpack input.elems ∧
        bits.length ≤ u64Max := by
  show Window (unpack input.elems) _ 0 bits ↔ _
  rw [Window, Nat.zero_add, slice_eq_some]
  constructor
  · rintro ⟨⟨-, hlen, htake⟩, hmax⟩
    rw [Nat.sub_zero, List.drop_zero] at htake
    refine ⟨?_, hmax _ rfl⟩
    nth_rewrite 1 [← htake]
    exact List.take_append_drop _ _
  · rintro ⟨happend, hmax⟩
    have hlen := congrArg List.length happend
    rw [List.length_append] at hlen
    refine ⟨⟨Nat.zero_le _, by omega, ?_⟩, ?_⟩
    · rw [Nat.sub_zero, List.drop_zero, ← happend, List.take_left]
    · intro limit hlimit
      cases hlimit
      exact hmax

namespace PackedType

variable {T : PackedType} {value : T.type.Value}

/-- The bits of a value and their padding are counted without saturation. -/
lemma length_bits_le (h : T.type.Fits value) :
    (T.type.bits value).length + 7 ≤ u64Max := by
  have hle := T.type.length_bits_le_size value h
  have hsize := T.size_lt
  rw [u64Max]
  omega

lemma length_bits_le_maxBits (h : T.type.Fits value) :
    (T.type.bits value).length ≤ T.type.maxBits := by
  have hmax := T.type.length_bits_le_maxBits value
  have hle := length_bits_le h
  rwa [min_eq_left (by omega)] at hmax

/-- The buffer of `MAX_BITS` bits has room for a value. -/
lemma length_bits_le_buffer (h : T.type.Fits value) :
    (T.type.bits value).length ≤ 8 * bytesForBits T.type.maxBits := by
  have hmax := length_bits_le_maxBits h
  have hle := T.type.length_bits_le_size value h
  have hsize := T.size_lt
  rw [bytesForBits, saturatingAdd, u64Max]
  omega

/-- What fits is packed into the buffer of `MAX_BITS` bits. -/
lemma pack_of_fits (h : T.type.Fits value) :
    ∃ w, T.type.pack value (BitWriter.new (List.replicate (bytesForBits T.type.maxBits) 0)) =
      (.ok (), w) ∧ Holds w (T.type.bits value)
        (8 * bytesForBits T.type.maxBits - (T.type.bits value).length) := by
  have hbuffer := length_bits_le_buffer h
  have hcount := length_bits_le h
  have hroom := holds_new (List.replicate (bytesForBits T.type.maxBits) 0)
  rw [List.length_replicate] at hroom
  exact PackType.packs T.type T.accepted value h _ [] _ hroom hbuffer
    (by rw [List.length_nil]; omega)

end PackedType

/-- What is serialized is packed. -/
lemma serialize_of_fits {T : PackedType} {base : Config} {value : T.type.Value}
    (hlimit : base.limit = none) (h : T.type.Fits value) :
    serialize base T.type value = .ok (pack (T.type.bits value)) := by
  have hbuffer := PackedType.length_bits_le_buffer h
  have hcount := PackedType.length_bits_le h
  obtain ⟨w, hw, hholds⟩ := PackedType.pack_of_fits h
  have hnolimit : ∀ length, base.enforceByteLimit length = .ok () := by
    intro length
    rw [Config.enforceByteLimit_eq_ok, hlimit]
    intro limit hsome
    cases hsome
  have hcapacity : withCapacity 1 (bytesForBits T.type.maxBits) = .ok () := by
    refine withCapacity_of_le ?_
    rw [bytesForBits, saturatingAdd, u64Max, isizeMax]
    omega
  have hwritten : w.bytesWritten = ((T.type.bits value).length + 7) / 8 := by
    rw [BitWriter.bytesWritten, hholds.position_eq, bytesForBits_eq hcount]
  have hinto : serializeIntoSlice base T.type value
      (List.replicate (bytesForBits T.type.maxBits) 0) =
        (.ok (((T.type.bits value).length + 7) / 8), w.output) := by
    rw [serializeIntoSlice]
    dsimp only
    rw [List.length_replicate, if_neg (lt_irrefl _), hw, hwritten]
    refine congrArg (fun outcome => (outcome, w.output)) ?_
    show (base.enforceByteLimit _ >>= _) = _
    rw [hnolimit]
    rfl
  have hpacked : w.output.take (((T.type.bits value).length + 7) / 8) =
      pack (T.type.bits value) := by
    refine eq_pack_of_unpack (n := 8 * (((T.type.bits value).length + 7) / 8) -
      (T.type.bits value).length) (by omega) ?_
    rw [unpack_take, hholds.unpack_eq, List.take_append, List.take_of_length_le (by omega),
      List.take_replicate]
    congr 2
    omega
  rw [serialize]
  dsimp only
  rw [hnolimit, hcapacity, hinto]
  show Outcome.ok _ = _
  rw [hpacked]

/-- What is deserialized is packed. -/
lemma deserialize_eq_ok {T : PackedType} {base : Config} {input : Slice 1 UInt8}
    {value : T.type.Value} (hlimit : base.limit = none) (htrailing : base.trailing = .reject) :
    deserialize base T.type input = .ok value ↔
      T.type.Fits value ∧ input.elems = pack (T.type.bits value) := by
  have hnolimit : base.enforceByteLimit input.elems.length = .ok () := by
    rw [Config.enforceByteLimit_eq_ok, hlimit]
    intro limit hsome
    cases hsome
  have hnil : Here (BitReader.new input) ([] : List Bool) :=
    here_new.mpr ⟨by rw [List.length_nil, List.drop_zero, List.nil_append], Nat.zero_le _⟩
  have hspells := PackType.spells T.type T.accepted (BitReader.new input) trivial hnil
  have hwhole : deserialize base T.type input = .ok value ↔ ∃ t u,
      T.type.unpack (BitReader.new input) = (.ok value, t) ∧
        BitReader.validateEnd .reject t = (.ok (), u) := by
    rw [deserialize, hnolimit, htrailing]
    show ((_ >>= _ : Act BitReader Error T.type.Value) (BitReader.new input)).1 = _ ↔ _
    rw [bind_fst_eq_ok]
    constructor
    · rintro ⟨v, t, hread, h⟩
      obtain ⟨_, u, hend, h⟩ := bind_fst_eq_ok.mp h
      cases h
      exact ⟨t, u, hread, hend⟩
    · rintro ⟨t, u, hread, hend⟩
      exact ⟨value, t, hread, bind_fst_eq_ok.mpr ⟨(), u, hend, rfl⟩⟩
  rw [hwhole]
  constructor
  · rintro ⟨t, u, hread, hend⟩
    obtain ⟨bits, ⟨hfits, rfl⟩, hhere, rfl⟩ := (hspells value t).mp hread
    obtain ⟨happend, -⟩ := here_new.mp hhere
    have hcount := PackedType.length_bits_le hfits
    have hlen := congrArg List.length happend
    rw [List.length_append, length_unpack] at hlen
    have hposition : (advance (BitReader.new input) (T.type.bits value).length).position =
        (T.type.bits value).length := Nat.zero_add _
    obtain ⟨⟨hused, hzero⟩, -⟩ := (validateEnd_eq_ok (by
      rw [hposition]
      show _ ≤ 8 * input.elems.length
      omega) (by rw [hposition]; exact hcount)).mp hend
    rw [hposition] at hused hzero
    have hused : input.elems.length = ((T.type.bits value).length + 7) / 8 := hused
    refine ⟨hfits, eq_pack_of_unpack (n := 8 * input.elems.length - (T.type.bits value).length)
      (by omega) ?_⟩
    rw [← happend]
    exact congrArg (T.type.bits value ++ ·) hzero
  · rintro ⟨hfits, hinput⟩
    have hcount := PackedType.length_bits_le hfits
    have hunpack := unpack_pack (T.type.bits value)
    rw [← hinput] at hunpack
    have hlen : input.elems.length = ((T.type.bits value).length + 7) / 8 := by
      rw [hinput, length_pack]
    have hdrop : (unpack input.elems).drop (T.type.bits value).length =
        List.replicate (8 * input.elems.length - (T.type.bits value).length) false := by
      rw [hunpack, List.drop_left, hlen]
    have hhere : Here (BitReader.new input) (T.type.bits value) := by
      refine here_new.mpr ⟨?_, by omega⟩
      rw [hdrop, hunpack, hlen]
    have hposition : (advance (BitReader.new input) (T.type.bits value).length).position =
        (T.type.bits value).length := Nat.zero_add _
    refine ⟨_, _, (hspells value _).mpr ⟨_, ⟨hfits, rfl⟩, hhere, rfl⟩,
      (validateEnd_eq_ok ?_ ?_).mpr ⟨⟨?_, ?_⟩, rfl⟩⟩
    · rw [hposition]
      show _ ≤ 8 * input.elems.length
      omega
    · rw [hposition]
      exact hcount
    · rw [hposition]
      exact hlen
    · rw [hposition]
      exact hdrop

end RustBinary.Bitpack
