import RustBinary.Bitpack.RoundTrip

/-!
# The byte limit of the bit-packed profile

`serialize` checks the byte limit against the worst case of a type, before it packs;
`serialize_into_slice` checks it against the bytes that have been written.  The two differ on the
values that are smaller than the worst case.
-/

namespace RustBinary.Bitpack

open Lib Lib.Act

/-- An implementation of `BitPack`, derived or written by hand: `MAX_BITS` and `pack`. -/
structure BitPack (α : Type) where
  maxBits : ℕ
  pack : α → Act BitWriter Error Unit

/-- The implementation that is derived. -/
def PackType.bitPack (t : PackType) : BitPack t.Value := ⟨t.maxBits, t.pack⟩

namespace BitPack

variable {α : Type}

/-- `serialize_into_slice`, on the output. -/
def serializeIntoSlice (base : Config) (P : BitPack α) (value : α) (output : List UInt8) :
    Outcome Error ℕ × List UInt8 :=
  let maximum := bytesForBits P.maxBits
  if output.length < maximum then (.err (.bufferTooSmall maximum output.length), output)
  else
    let (outcome, writer) := P.pack value (BitWriter.new output)
    let written := do
      outcome
      let written := writer.bytesWritten
      base.enforceByteLimit written
      pure written
    (written, writer.output)

/-- `serialize`. -/
def serialize (base : Config) (P : BitPack α) (value : α) : Outcome Error (List UInt8) := do
  let maximum := bytesForBits P.maxBits
  base.enforceByteLimit maximum
  withCapacity 1 maximum
  let (outcome, output) := P.serializeIntoSlice base value (List.replicate maximum 0)
  let written ← outcome
  pure (output.take written)

/-- Both give the same bytes or the same error, for a buffer of the worst case. -/
def Agrees (base : Config) (P : BitPack α) (value : α) : Prop :=
  ∀ output : List UInt8, output.length = bytesForBits P.maxBits →
    P.serialize base value = do
      let written ← (P.serializeIntoSlice base value output).1
      pure ((P.serializeIntoSlice base value output).2.take written)

/-- The value is packed into more than `limit` bytes, or `pack` itself complains of the limit. -/
def Exceeds (P : BitPack α) (value : α) (limit : ℕ) : Prop :=
  ∃ outcome writer, P.pack value (BitWriter.new (List.replicate (bytesForBits P.maxBits) 0)) =
    (outcome, writer) ∧
      (outcome = .ok () ∧ limit < writer.bytesWritten ∨ outcome = .err (.sizeLimit limit))

end BitPack

lemma serializeIntoSlice_bitPack (base : Config) (t : PackType) (value : t.Value)
    (output : List UInt8) :
    t.bitPack.serializeIntoSlice base value output = serializeIntoSlice base t value output := rfl

lemma serialize_bitPack (base : Config) (t : PackType) (value : t.Value) :
    t.bitPack.serialize base value = serialize base t value := rfl

lemma bytesForBits_le (bits : ℕ) : 1 * bytesForBits bits ≤ isizeMax := by
  rw [bytesForBits, saturatingAdd, u64Max, isizeMax]
  omega

/-- A writer starts from the length of its buffer only. -/
lemma new_of_length {output : List UInt8} {n : ℕ} (h : output.length = n) :
    BitWriter.new output = BitWriter.new (List.replicate n 0) := by
  rw [BitWriter.new, BitWriter.new, List.length_replicate, h]

namespace BitPack

variable {α : Type} {P : BitPack α} {base : Config} {value : α} {limit : ℕ}

/-- The packing into a buffer of the worst case. -/
lemma serializeIntoSlice_run {output : List UInt8} {outcome : Outcome Error Unit}
    {writer : BitWriter} (hlen : output.length = bytesForBits P.maxBits)
    (h : P.pack value (BitWriter.new (List.replicate (bytesForBits P.maxBits) 0)) =
      (outcome, writer)) :
    P.serializeIntoSlice base value output =
      (outcome >>= fun _ => base.enforceByteLimit writer.bytesWritten >>= fun _ =>
        pure writer.bytesWritten, writer.output) := by
  have hroom : ¬ output.length < bytesForBits P.maxBits := by omega
  rw [← new_of_length hlen] at h
  unfold serializeIntoSlice
  rw [if_neg hroom, h]

/-- Where the worst case is within the limit the value is packed and checked. -/
lemma agrees_of_le (h : ∀ limit, base.limit = some limit → bytesForBits P.maxBits ≤ limit) :
    Agrees base P value := by
  intro output hlen
  have henforce : base.enforceByteLimit (bytesForBits P.maxBits) = .ok () :=
    Config.enforceByteLimit_eq_ok.mpr h
  rw [serialize]
  dsimp only
  rcases hpack : P.pack value (BitWriter.new (List.replicate (bytesForBits P.maxBits) 0)) with
    ⟨outcome, writer⟩
  rw [henforce, Outcome.ok_bind, withCapacity_of_le (bytesForBits_le _), Outcome.ok_bind,
    serializeIntoSlice_run hlen hpack, serializeIntoSlice_run List.length_replicate hpack]

lemma enforceByteLimit_of_lt {length : ℕ} (hlimit : base.limit = some limit)
    (h : limit < length) : base.enforceByteLimit length = .err (.sizeLimit limit) := by
  rw [Config.enforceByteLimit, hlimit]
  exact if_pos h

/-- Above the limit, `serialize` fails whatever the value is. -/
lemma serialize_of_lt (hlimit : base.limit = some limit) (h : limit < bytesForBits P.maxBits) :
    P.serialize base value = .err (.sizeLimit limit) := by
  rw [serialize]
  dsimp only
  rw [enforceByteLimit_of_lt hlimit h]
  rfl

/-- `serialize_into_slice` complains of the limit when the value exceeds it. -/
lemma serializeIntoSlice_eq_sizeLimit {output : List UInt8}
    (hlen : output.length = bytesForBits P.maxBits) (hlimit : base.limit = some limit) :
    (P.serializeIntoSlice base value output).1 = .err (.sizeLimit limit) ↔
      P.Exceeds value limit := by
  rw [Exceeds]
  rcases hpack : P.pack value (BitWriter.new (List.replicate (bytesForBits P.maxBits) 0)) with
    ⟨_ | e | _ | _, writer⟩ <;> rw [serializeIntoSlice_run hlen hpack]
  · by_cases h : limit < writer.bytesWritten
    · rw [Outcome.ok_bind, enforceByteLimit_of_lt hlimit h]
      exact iff_of_true rfl ⟨_, writer, rfl, .inl ⟨rfl, h⟩⟩
    · have henforce : base.enforceByteLimit writer.bytesWritten = .ok () := by
        rw [Config.enforceByteLimit, hlimit]
        exact if_neg h
      rw [Outcome.ok_bind, henforce]
      refine iff_of_false (by rintro ⟨⟩) ?_
      rintro ⟨_, _, ⟨⟩, ⟨-, hlt⟩ | ⟨⟨⟩⟩⟩
      exact h hlt
  · constructor
    · intro h
      cases h
      exact ⟨_, writer, rfl, .inr rfl⟩
    · rintro ⟨_, _, ⟨⟩, ⟨⟨⟩, -⟩ | h⟩
      rw [h]
      rfl
  · refine iff_of_false (by rintro ⟨⟩) ?_
    rintro ⟨_, _, ⟨⟩, ⟨⟨⟩, -⟩ | ⟨⟨⟩⟩⟩
  · refine iff_of_false (by rintro ⟨⟩) ?_
    rintro ⟨_, _, ⟨⟩, ⟨⟨⟩, -⟩ | ⟨⟨⟩⟩⟩

/-- Below the worst case, the two agree on the values that exceed the limit themselves. -/
lemma agrees_iff_of_lt (hlimit : base.limit = some limit) (h : limit < bytesForBits P.maxBits) :
    Agrees base P value ↔ P.Exceeds value limit := by
  constructor
  · intro hagrees
    have hlen : (List.replicate (bytesForBits P.maxBits) (0 : UInt8)).length =
        bytesForBits P.maxBits := List.length_replicate
    have hbuffer := hagrees _ hlen
    rw [serialize_of_lt hlimit h] at hbuffer
    refine (serializeIntoSlice_eq_sizeLimit hlen hlimit).mp ?_
    rcases hinto : (P.serializeIntoSlice base value
      (List.replicate (bytesForBits P.maxBits) 0)).1 with n | e | _ | _ <;> rw [hinto] at hbuffer
    · cases hbuffer
    · cases hbuffer
      rfl
    · cases hbuffer
    · cases hbuffer
  · intro hexceeds output hlen
    rw [serialize_of_lt hlimit h, (serializeIntoSlice_eq_sizeLimit hlen hlimit).mpr hexceeds]
    rfl

/-- The two agree unless the limit is below the worst case and the value is not above it. -/
lemma agrees_iff : Agrees base P value ↔
    ∀ limit, base.limit = some limit → limit < bytesForBits P.maxBits →
      P.Exceeds value limit := by
  constructor
  · intro h limit hlimit hlt
    exact (agrees_iff_of_lt hlimit hlt).mp h
  · intro h
    by_cases hlt : ∃ limit, base.limit = some limit ∧ limit < bytesForBits P.maxBits
    · obtain ⟨limit, hlimit, hlt⟩ := hlt
      exact (agrees_iff_of_lt hlimit hlt).mpr (h limit hlimit hlt)
    · exact agrees_of_le fun limit hlimit => Nat.le_of_not_lt fun hlt' => hlt ⟨limit, hlimit, hlt'⟩

end BitPack

/-! ## Derived types -/

/-- No run of `m` complains of a byte limit. -/
def Unlimited {σ α : Type} (m : Act σ Error α) : Prop :=
  ∀ s limit t, m s ≠ (.err (.sizeLimit limit), t)

lemma Unlimited.bind {σ α γ : Type} {m : Act σ Error α} {f : α → Act σ Error γ}
    (hm : Unlimited m) (hf : ∀ a, Unlimited (f a)) : Unlimited (m >>= f) := by
  intro s limit t
  rw [bind_run]
  rcases h : m s with ⟨a | e | _ | _, u⟩
  · exact hf a u limit t
  · rintro ⟨⟩
    exact hm s limit _ h
  · rintro ⟨⟩
  · rintro ⟨⟩

lemma unlimited_write (value width : ℕ) : Unlimited (BitWriter.write value width) := by
  intro s limit t
  rw [BitWriter.write]
  split
  · rintro ⟨⟩
  split
  · rintro ⟨⟩
  rw [get_bind_run]
  cases checkedAdd s.position width with
  | none => rintro ⟨⟩
  | some stop =>
      rw [okOr_some, pure_bind_run]
      split
      · rintro ⟨⟩
      · rintro ⟨⟩

lemma unlimited_encodeBits (s : Scalar) (value : s.Value) (width : ℕ) :
    Unlimited (call (s.encodeBits value width) : Act BitWriter Error ℕ) := by
  intro w limit t
  rw [call_run]
  cases s with
  | bool =>
      rw [Scalar.encodeBits]
      split <;> rintro ⟨⟩
  | unsigned w =>
      rw [Scalar.encodeBits]
      split
      · rintro ⟨⟩
      · split <;> rintro ⟨⟩
  | signed w =>
      rw [Scalar.encodeBits]
      split
      · rintro ⟨⟩
      · dsimp only
        split <;> rintro ⟨⟩

lemma Scalar.unlimited (s : Scalar) (value : s.Value) : Unlimited (s.pack value) := by
  cases s with
  | bool => exact unlimited_write _ _
  | unsigned w => exact (unlimited_encodeBits _ _ _).bind fun word => unlimited_write _ _
  | signed w => exact (unlimited_encodeBits _ _ _).bind fun word => unlimited_write _ _

mutual

/-- The derive packs without a look at the limit. -/
lemma PackType.unlimited : (t : PackType) → (value : t.Value) → Unlimited (t.pack value)
  | .scalar s, value => s.unlimited value
  | .struct fields, values => Fields.unlimited fields values
  | .enum variants, value => Variants.unlimited variants variants.tagBits 0 value

lemma Fields.unlimited : (fields : Fields) → (values : fields.Values) →
    Unlimited (fields.pack values)
  | .nil, _ => by
      intro s limit t
      rintro ⟨⟩
  | .declared s width rest, (value, values) =>
      (unlimited_encodeBits s value width).bind fun _ =>
        (unlimited_write _ _).bind fun _ => Fields.unlimited rest values
  | .nested t rest, (value, values) =>
      (PackType.unlimited t value).bind fun _ => Fields.unlimited rest values

lemma Variants.unlimited : (variants : Variants) → (tagBits index : ℕ) →
    (value : variants.Value) → Unlimited (variants.pack tagBits index value)
  | .cons fields _, _, _, .inl values =>
      (unlimited_write _ _).bind fun _ => Fields.unlimited fields values
  | .cons _ rest, tagBits, index, .inr value =>
      Variants.unlimited rest tagBits (index + 1) value

end

/-- A value of a derived type exceeds the limit when it fits and takes more bytes. -/
lemma PackedType.exceeds_iff {T : PackedType} {value : T.type.Value} {limit : ℕ} :
    T.type.bitPack.Exceeds value limit ↔
      T.type.Fits value ∧ limit < ((T.type.bits value).length + 7) / 8 := by
  have hbytes : ∀ {writer : BitWriter},
      T.type.pack value (BitWriter.new (List.replicate (bytesForBits T.type.maxBits) 0)) =
        (.ok (), writer) →
      T.type.Fits value ∧ writer.bytesWritten = ((T.type.bits value).length + 7) / 8 := by
    intro writer h
    obtain ⟨hfits, hposition⟩ := PackType.measures T.type value _ _ h
    refine ⟨hfits, ?_⟩
    rw [BitWriter.bytesWritten, hposition]
    show bytesForBits (0 + _) = _
    rw [Nat.zero_add, bytesForBits_eq (PackedType.length_bits_le hfits)]
  constructor
  · rintro ⟨outcome, writer, hpack, ⟨rfl, hlt⟩ | rfl⟩
    · obtain ⟨hfits, hwritten⟩ := hbytes hpack
      rw [hwritten] at hlt
      exact ⟨hfits, hlt⟩
    · exact absurd hpack (PackType.unlimited T.type value _ limit writer)
  · rintro ⟨hfits, hlt⟩
    obtain ⟨writer, hpack, -⟩ := T.pack_of_fits hfits
    refine ⟨_, writer, hpack, .inl ⟨rfl, ?_⟩⟩
    rw [(hbytes hpack).2]
    exact hlt

/-- The two ways to serialize.  They have the same bytes or the same error, for every
implementation of `BitPack` and every value, when no limit is set, when the limit is not below the
worst case of the type, and when the value is packed into more bytes than the limit; and in no
other case.  For a derived type, the last says that the fields fit and that the bits of the
value, those of its own variant, take more bytes than the limit. -/
theorem serialize_agrees_iff (base : Config) :
    (∀ {α : Type} (P : BitPack α) (value : α), P.Agrees base value ↔
      ∀ limit, base.limit = some limit → limit < bytesForBits P.maxBits →
        P.Exceeds value limit) ∧
    ∀ (T : PackedType) (value : T.type.Value), T.type.bitPack.Agrees base value ↔
      ∀ limit, base.limit = some limit → limit < bytesForBits T.type.maxBits →
        T.type.Fits value ∧ limit < ((T.type.bits value).length + 7) / 8 := by
  refine ⟨fun P value => BitPack.agrees_iff, fun T value => BitPack.agrees_iff.trans ?_⟩
  exact forall₂_congr fun limit _ => imp_congr Iff.rfl PackedType.exceeds_iff

/-- `enum E { A, B(u64) }`. -/
def lopsided : PackType :=
  .enum (.cons .nil (.cons (.nested (.scalar (.unsigned .w64)) .nil) .nil))

theorem serialize_disagrees_lopsided :
    ¬ lopsided.bitPack.Agrees (Config.standard.withLimit 1) (.inl ()) := by
  intro h
  have hbuffer := h (List.replicate (bytesForBits lopsided.maxBits) 0) List.length_replicate
  have hserialize : lopsided.bitPack.serialize (Config.standard.withLimit 1) (.inl ()) =
      .err (.sizeLimit 1) := rfl
  rw [hserialize] at hbuffer
  cases hbuffer

end RustBinary.Bitpack
