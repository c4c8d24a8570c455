import RustBinary.Entropy.Acceptance

/-!
# Byte buffers

`compress` codes a buffer with one model, or stores it as it is where the coded form would not be
smaller and the profile admits this.  Whichever it does, what it has written is read back with
every other profile whose byte limit admits the frame, and a frame is never longer than the
fallback allows.
-/

namespace RustBinary.Entropy

open Lib Lib.Outcome EntropyConfig

/-- The pairs that `compress` puts on. -/
abbrev bytePairs (model : Model) (input : List UInt8) : List (Model × ℕ) :=
  input.map fun byte => (model, byte.toNat)

/-- Every byte is a symbol of the model. -/
def Codable (model : Model) (input : List UInt8) : Prop :=
  ∀ byte ∈ input, byte.toNat < model.symbols

instance (model : Model) (input : List UInt8) : Decidable (Codable model input) :=
  List.decidableBAll (fun byte : UInt8 => byte.toNat < model.symbols) input

lemma inAlphabets_bytePairs {model : Model} {input : List UInt8} :
    InAlphabets (bytePairs model input) ↔ Codable model input := by
  simp only [InAlphabets, bytePairs, List.forall_mem_map, Codable]

/-! ## What is written -/

/-- A symbol that has been put on is one of its model. -/
lemma symbol_lt_of_putSymbol {e e₁ : RansEncoder} {model : Model} {symbol : ℕ}
    (h : e.putSymbol model symbol = ok e₁) : symbol < model.symbols := by
  rw [RansEncoder.putSymbol] at h
  split at h
  · simp at h
  · next hfreq =>
      refine Nat.lt_of_not_le fun hle => hfreq ?_
      rw [Model.freq, List.getD_eq_default _ _ hle]

lemma inAlphabets_of_putSymbols {pairs : List (Model × ℕ)} {e e₁ : RansEncoder}
    (h : putSymbols pairs e = ok e₁) : InAlphabets pairs := by
  induction pairs generalizing e with
  | nil => exact List.forall_mem_nil _
  | cons pair pairs ih =>
      obtain ⟨model, symbol⟩ := pair
      rw [putSymbols, bind_eq_ok] at h
      obtain ⟨e₂, hput, h⟩ := h
      exact List.forall_mem_cons.mpr ⟨symbol_lt_of_putSymbol hput, ih h⟩

lemma wrap_eq_ok {c : EntropyConfig} {finalState count : ℕ} {payload bytes : List UInt8}
    {raw : Bool} :
    c.wrap finalState count payload raw = ok bytes ↔
      headerLen + payload.length ≤ u64Max ∧
        c.base.enforceByteLimit (headerLen + payload.length) = ok () ∧
        bytes = frame (if raw then 0 else finalState) count payload raw := by
  constructor
  · intro h
    rw [wrap, bind_eq_ok] at h
    obtain ⟨total, htotal, h⟩ := h
    obtain ⟨⟨⟩, hlimit, hframe⟩ := bind_eq_ok.mp h
    rw [okOr_eq_ok, checkedAdd] at htotal
    split at htotal
    · next hfits =>
        obtain rfl := Option.some.inj htotal
        exact ⟨hfits, hlimit, (Outcome.ok.inj hframe).symm⟩
    · simp at htotal
  · rintro ⟨hfits, hlimit, rfl⟩
    exact wrap_eq hfits hlimit

/-- The buffer is stored as it is. -/
def storesRaw (c : EntropyConfig) (input : List UInt8) (e : RansEncoder) : Bool :=
  c.rawFallback && decide (input.length ≤ e.bytes.length)

/-- A frame that has been written holds the coded form of the buffer, or the buffer. -/
lemma compress_eq_ok {c : EntropyConfig} {input bytes : List UInt8} {model : Model} :
    c.compress input model = ok bytes ↔
      ∃ e payload, putSymbols (bytePairs model input) .new = ok e ∧
        payload = (if storesRaw c input e then input else e.bytes) ∧
        headerLen + payload.length ≤ u64Max ∧
        c.base.enforceByteLimit (headerLen + payload.length) = ok () ∧
        bytes = frame (if storesRaw c input e then 0 else e.state) input.length payload
          (storesRaw c input e) := by
  rw [compress, bind_eq_ok]
  constructor
  · rintro ⟨e, hput, h⟩
    exact ⟨e, _, hput, rfl, wrap_eq_ok.mp h⟩
  · rintro ⟨e, payload, hput, rfl, h⟩
    exact ⟨e, hput, wrap_eq_ok.mpr h⟩

/-- The longest payload that a profile writes for a buffer. -/
def payloadBound (c : EntropyConfig) (input : List UInt8) : ℕ :=
  if c.rawFallback then input.length else 2 * input.length

/-- At most a word is flushed for a byte, and with the fallback no more than the buffer is kept. -/
lemma payload_length_le {c : EntropyConfig} {input payload : List UInt8} {model : Model}
    {e : RansEncoder} (hput : putSymbols (bytePairs model input) .new = ok e)
    (hpayload : payload = if storesRaw c input e then input else e.bytes) :
    payload.length ≤ payloadBound c input := by
  obtain ⟨e₁, hput₁, -, ⟨w, hw, hwlen⟩, -⟩ :=
    putSymbols_getSymbols (inAlphabets_of_putSymbols hput) RansEncoder.inRange_new
  obtain rfl := Outcome.ok.inj (hput.symm.trans hput₁)
  have hcoded : e.bytes.length ≤ 2 * input.length := by
    have hcount : (bytePairs model input).length = input.length := List.length_map _
    rw [hw, ← hcount]
    exact hwlen
  rw [hpayload, payloadBound, storesRaw]
  cases c.rawFallback with
  | false => simpa using hcoded
  | true =>
      simp only [Bool.true_and, decide_eq_true_eq, if_true]
      split <;> omega

/-! ## What is read back -/

/-- The bytes of the loop are the symbols that are taken off. -/
lemma getBytes_of_getSymbols {model : Model} {n : ℕ} {output : List UInt8} {d d' : RansDecoder}
    (h : getSymbols (List.replicate n model) d = ok (output.map UInt8.toNat, d')) :
    getBytes model n d = ok (output, d') := by
  induction n generalizing output d with
  | zero =>
      rw [List.replicate_zero, getSymbols, Outcome.ok.injEq, Prod.mk.injEq] at h
      obtain ⟨hnil, rfl⟩ := h
      rw [List.map_eq_nil_iff.mp hnil.symm]
      rfl
  | succ n ih =>
      rw [List.replicate_succ, getSymbols, bind_eq_ok] at h
      obtain ⟨⟨symbol, d₁⟩, hsymbol, h⟩ := h
      rw [bind_eq_ok] at h
      obtain ⟨⟨symbols, d₂⟩, hsymbols, h⟩ := h
      rw [Outcome.ok.injEq, Prod.mk.injEq] at h
      obtain ⟨hcons, rfl⟩ := h
      obtain ⟨byte, rest, rfl, rfl, rfl⟩ := List.map_eq_cons_iff.mp hcons.symm
      have hbyte := byte.toNat_lt
      rw [getBytes, hsymbol, ok_bind]
      dsimp only
      rw [if_neg (by omega), ih hsymbols, ok_bind, UInt8.ofNat_toNat]

/-- The coded form of a buffer comes back, and the decoder ends where the encoder began. -/
lemma getBytes_putSymbols {model : Model} {input : List UInt8} {e : RansEncoder}
    (hput : putSymbols (bytePairs model input) .new = ok e) :
    e.state ≤ u64Max ∧ getBytes model input.length (.new e.state e.bytes)
      = ok (input.reverse, ⟨ransL, e.bytes, 0⟩) := by
  obtain ⟨e₁, hput₁, he, -, hget⟩ :=
    putSymbols_getSymbols (inAlphabets_of_putSymbols hput) RansEncoder.inRange_new
  obtain rfl := Outcome.ok.inj (hput.symm.trans hput₁)
  -- the first symbol is put on without a flush, so that no word is pending at the end
  obtain ⟨d, hsymbols, -, hexact⟩ := hget []
  obtain rfl := hexact (by decide)
  have hfst : (bytePairs model input).reverse.map Prod.fst = List.replicate input.length model := by
    rw [List.map_reverse, List.map_map]
    simp [Function.comp_def]
  have hsnd : (bytePairs model input).reverse.map Prod.snd = input.reverse.map UInt8.toNat := by
    rw [List.map_reverse, List.map_map, List.map_reverse]
    rfl
  rw [hfst, hsnd, List.append_nil] at hsymbols
  refine ⟨?_, getBytes_of_getSymbols hsymbols⟩
  have hstate := he.2
  rw [u64Max]
  omega

/-- A frame with the coded form of a buffer is decompressed to the buffer. -/
lemma decompress_coded {c : EntropyConfig} {model : Model} {input : Slice 1 UInt8}
    {e : RansEncoder} (hput : putSymbols (bytePairs model input.elems) .new = ok e)
    {read : Input} (hread : read.bytes = frame e.state input.elems.length e.bytes false)
    (hlimit : c.base.enforceByteLimit read.bytes.length = ok ()) :
    c.decompress read model = ok input.elems := by
  obtain ⟨hstate, hget⟩ := getBytes_putSymbols hput
  have hcount := input.length_le
  have hunwrap : c.unwrap read.bytes = ok (input.elems.length, e.state, false, e.bytes) := by
    refine unwrap_eq_ok.mpr ⟨hread, ?_, hstate, by simp, hlimit⟩
    rw [isizeMax] at hcount
    rw [u64Max]
    omega
  have hcap : withCapacity 1 input.elems.length = ok () :=
    withCapacity_of_le (by rw [isizeMax] at hcount ⊢; omega)
  have hfinish : RansDecoder.finish ⟨ransL, e.bytes, 0⟩ = ok () := rfl
  rw [decompress, hunwrap, ok_bind]
  dsimp only
  rw [if_neg (by simp), hcap, ok_bind, hget, ok_bind]
  dsimp only
  rw [List.reverse_reverse, hfinish, ok_bind]
  cases c.replayVerification with
  | false => rfl
  | true =>
      have hreplay : checkReplay e.state e.bytes e.state e.bytes = ok () := require_of ⟨rfl, rfl⟩
      rw [if_pos rfl, hput]
      simp only [ok_bind, hreplay]

/-- A frame with a buffer as it is is decompressed to the buffer. -/
lemma decompress_raw {c : EntropyConfig} {model : Model} {input : Slice 1 UInt8} {read : Input}
    (hread : read.bytes = frame 0 input.elems.length input.elems true)
    (hlimit : c.base.enforceByteLimit read.bytes.length = ok ()) :
    c.decompress read model = ok input.elems := by
  have hcount := input.length_le
  have hunwrap : c.unwrap read.bytes = ok (input.elems.length, 0, true, input.elems) := by
    refine unwrap_eq_ok.mpr ⟨hread, ?_, Nat.zero_le _, fun _ => rfl, hlimit⟩
    rw [isizeMax] at hcount
    rw [u64Max]
    omega
  rw [decompress, hunwrap, ok_bind]
  dsimp only
  rw [if_pos rfl, require_of rfl, ok_bind]

/-- **Compression loses nothing.**  A buffer is compressed only if every byte is a symbol of the
model, and then it is where the byte limit admits the longest frame of the profile.  No frame is
longer than this, and a frame is decompressed to the buffer by every profile, with whatever
verification and fallback, whose own byte limit admits the frame. -/
theorem decompress_compress (c₁ c₂ : EntropyConfig) (model : Model) (input : Slice 1 UInt8) :
    (Codable model input.elems → headerLen + payloadBound c₁ input.elems ≤ u64Max →
      (∀ limit, c₁.base.limit = some limit → headerLen + payloadBound c₁ input.elems ≤ limit) →
      ∃ bytes, c₁.compress input.elems model = ok bytes) ∧
    ∀ bytes, c₁.compress input.elems model = ok bytes →
      Codable model input.elems ∧ bytes.length ≤ headerLen + payloadBound c₁ input.elems ∧
      ∀ read : Input, read.bytes = bytes → c₂.base.enforceByteLimit bytes.length = ok () →
        c₂.decompress read model = ok input.elems := by
  constructor
  · intro hcodable hmax hlimit
    obtain ⟨e, hput, -⟩ :=
      putSymbols_getSymbols (inAlphabets_bytePairs.mpr hcodable) RansEncoder.inRange_new
    have hle := payload_length_le (c := c₁) hput rfl
    refine ⟨_, compress_eq_ok.mpr ⟨e, _, hput, rfl, by omega, ?_, rfl⟩⟩
    exact Config.enforceByteLimit_eq_ok.mpr fun limit h => by
      have := hlimit limit h
      omega
  · intro bytes h
    obtain ⟨e, payload, hput, hpayload, -, -, rfl⟩ := compress_eq_ok.mp h
    refine ⟨inAlphabets_bytePairs.mp (inAlphabets_of_putSymbols hput), ?_, ?_⟩
    · rw [frame_length]
      exact Nat.add_le_add_left (payload_length_le hput hpayload) _
    · intro read hread hlimit
      rw [← hread] at hlimit
      subst hpayload
      cases hraw : storesRaw c₁ input.elems e with
      | true =>
          rw [hraw] at hread
          exact decompress_raw hread hlimit
      | false =>
          rw [hraw] at hread
          exact decompress_coded hput hread hlimit

/-- Three bytes of an alphabet of two, read without replay. -/
theorem decompress_compress_zeros :
    let skewed : Model := ⟨[32767, 1], by decide, by decide⟩
    let c := EntropyConfig.new Config.standard
    ∃ bytes, c.compress [0, 1, 0] skewed = ok bytes ∧ bytes.length ≤ 27 ∧
      ∀ read : Input, read.bytes = bytes →
        c.withoutReplayVerification.decompress read skewed = ok [0, 1, 0] := by
  intro skewed c
  obtain ⟨hwrite, hread⟩ :=
    decompress_compress c c.withoutReplayVerification skewed ⟨[0, 1, 0], by decide⟩
  obtain ⟨bytes, hbytes⟩ := hwrite (by decide) (by decide) (by decide)
  obtain ⟨-, hlength, hback⟩ := hread bytes hbytes
  have hle : bytes.length ≤ 27 := hlength
  refine ⟨bytes, hbytes, hle, fun read heq => hback read heq ?_⟩
  refine Config.enforceByteLimit_eq_ok.mpr fun limit hlimit => ?_
  rw [← Option.some.inj hlimit, defaultSizeLimit]
  omega

end RustBinary.Entropy
