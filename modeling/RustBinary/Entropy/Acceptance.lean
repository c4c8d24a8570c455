import RustBinary.Entropy.Frame
import RustBinary.Entropy.RoundTrip

/-!
# What the framed profile accepts

A frame is read exactly when it is spelled as the profile spells frames.  Symbols that are put
on come back, whatever the verification; and a frame that replays is the frame of what it
decodes to.  The exception are the raw frames, which are accepted also where the profile no
longer writes them.
-/

namespace RustBinary.Entropy

open Lib Lib.Outcome EntropyConfig

/-! ## Frames -/

lemma frame_length (storedState count : ℕ) (payload : List UInt8) (raw : Bool) :
    (frame storedState count payload raw).length = headerLen + payload.length := by
  simp only [frame, magic, headerLen, List.length_append, List.length_cons, List.length_nil,
    length_leBytes]
  omega

lemma wrap_eq {c : EntropyConfig} {finalState count : ℕ} {payload : List UInt8} {raw : Bool}
    (hfits : headerLen + payload.length ≤ u64Max)
    (hlimit : c.base.enforceByteLimit (headerLen + payload.length) = ok ()) :
    c.wrap finalState count payload raw
      = ok (frame (if raw then 0 else finalState) count payload raw) := by
  rw [wrap, checkedAdd, if_pos hfits, okOr_some, ok_bind, hlimit, ok_bind]

/-- Only the lowest flag is known. -/
lemma flags_known {flags : ℕ} (hflags : flags < 2 ^ 16) :
    flags &&& (0xffff - flagRaw) = 0 ↔ flags < 2 := by
  have hhalf : (flags &&& (0xffff - flagRaw)) / 2 = flags / 2 := by
    rw [Nat.and_div_two, show (0xffff - flagRaw) / 2 = 2 ^ 15 - 1 by rfl,
      Nat.and_two_pow_sub_one_eq_mod, Nat.mod_eq_of_lt (by omega)]
  constructor
  · intro h
    rw [h] at hhalf
    omega
  · intro h
    obtain rfl | rfl : flags = 0 ∨ flags = 1 := by omega
    · rfl
    · rfl

lemma flag_raw {flags : ℕ} (h : flags < 2) : flags &&& flagRaw = flags := by
  obtain rfl | rfl : flags = 0 ∨ flags = 1 := by omega
  · rfl
  · rfl

/-- The fields of a header, cut out of its bytes. -/
lemma header_split (bs : List UInt8) :
    bs = bs.take 4 ++ ((bs.drop 4).take 2 ++ ((bs.drop 6).take 2 ++ ((bs.drop 8).take 8
      ++ ((bs.drop 16).take 8 ++ bs.drop 24)))) := by
  have hcut (n k : ℕ) : (bs.drop n).take k ++ bs.drop (n + k) = bs.drop n := by
    rw [← List.drop_drop]
    exact List.take_append_drop k _
  rw [hcut 16 8, hcut 8 8, hcut 6 2, hcut 4 2, List.take_append_drop]

/-- A field of `w` bytes is spelled by its number. -/
lemma field_eq (bs : List UInt8) (n w : ℕ) (h : n + w ≤ bs.length) :
    (bs.drop n).take w = leBytes w (leNat ((bs.drop n).take w)) ∧
      leNat ((bs.drop n).take w) < 256 ^ w := by
  have hlen : ((bs.drop n).take w).length = w := by
    rw [List.length_take, List.length_drop]
    omega
  constructor
  · conv_lhs => rw [← leBytes_leNat ((bs.drop n).take w), hlen]
  · exact (leNat_lt _).trans_eq (by rw [hlen])

/-- A field of the header is one of the input. -/
lemma header_field (input : List UInt8) {n w : ℕ} (h : n + w ≤ headerLen) :
    ((input.take headerLen).drop n).take w = (input.drop n).take w := by
  rw [List.drop_take, List.take_take, Nat.min_eq_left (by omega)]

/-- The header of a spelled frame. -/
lemma frame_header (finalState count : ℕ) (payload : List UInt8) (raw : Bool) :
    slice (frame finalState count payload raw) 0 headerLen
      = some ((frame finalState count payload raw).take headerLen) := by
  rw [slice_eq_some, frame_length]
  exact ⟨Nat.zero_le _, Nat.le_add_right _ _, by rw [List.drop_zero, Nat.sub_zero]⟩

/-- A frame is read exactly when it is spelled as a frame. -/
lemma unwrap_eq_ok {c : EntropyConfig} {input : List UInt8} {count finalState : ℕ} {raw : Bool}
    {payload : List UInt8} :
    c.unwrap input = ok (count, finalState, raw, payload) ↔
      input = frame finalState count payload raw ∧ count ≤ u64Max ∧ finalState ≤ u64Max ∧
        (raw = true → finalState = 0) ∧ c.base.enforceByteLimit input.length = ok () := by
  constructor
  · intro h
    simp only [unwrap, bind_eq_ok, okOr_eq_ok, require_eq_ok, slice_eq_some] at h
    obtain ⟨⟨⟩, hlimit, header, ⟨-, hlen, hheader⟩, -, hmagic, -, hversion, -, hflags, -, hraw, h⟩ :=
      h
    rw [List.drop_zero, Nat.sub_zero] at hheader
    subst hheader
    have h4 : (input.take headerLen).take 4 = input.take 4 := by
      rw [List.take_take, Nat.min_eq_left (by decide)]
    have h6 := header_field input (show 6 + 2 ≤ headerLen by decide)
    have h8 := header_field input (show 8 + 8 ≤ headerLen by decide)
    have h16 := header_field input (show 16 + 8 ≤ headerLen by decide)
    rw [h4] at hmagic
    rw [header_field input (by decide)] at hversion
    simp only [h6, h8, h16, Outcome.ok.injEq, Prod.mk.injEq] at h hraw hflags
    obtain ⟨hcount, hstate, hflag, hpayload⟩ := h
    rw [headerLen] at hlen
    obtain ⟨eversion, -⟩ := field_eq input 4 2 (by omega)
    obtain ⟨eflags, hflt⟩ := field_eq input 6 2 (by omega)
    obtain ⟨ecount, hclt⟩ := field_eq input 8 8 (by omega)
    obtain ⟨estate, hslt⟩ := field_eq input 16 8 (by omega)
    generalize leNat ((input.drop 6).take 2) = flags at hraw hflags hflag eflags hflt
    have hknown := (flags_known hflt).mp hflags
    rw [flag_raw hknown] at hraw hflag
    have hbits : leBytes 2 flags = leBytes 2 (if raw then flagRaw else 0) := by
      obtain rfl | rfl : flags = 0 ∨ flags = 1 := by omega
      · rw [← hflag]
        rfl
      · rw [← hflag]
        rfl
    have hsplit := header_split input
    rw [hmagic, eversion, hversion, eflags, hbits, ecount, hcount, estate, hstate] at hsplit
    refine ⟨?_, ?_, ?_, ?_, hlimit⟩
    · rw [← hpayload]
      exact hsplit
    · rw [← hcount, u64Max]
      omega
    · rw [← hstate, u64Max]
      omega
    · intro htrue
      by_contra hne
      rw [htrue, decide_eq_true_eq] at hflag
      exact hraw ⟨hflag, by rw [hstate]; exact hne⟩
  · rintro ⟨rfl, hcount, hstate, hraw, hlimit⟩
    have h8 {n : ℕ} (hn : n ≤ u64Max) : leNat (leBytes 8 n) = n := by
      rw [leNat_leBytes]
      rw [u64Max] at hn
      omega
    have hversion : leNat (leBytes 2 formatVersion) = formatVersion := rfl
    have hflags : leNat (leBytes 2 (if raw then flagRaw else 0)) = if raw then 1 else 0 := by
      cases raw <;> rfl
    have hheader := frame_header finalState count payload raw
    obtain ⟨header, hdef⟩ : ∃ header, header = (frame finalState count payload raw).take headerLen :=
      ⟨_, rfl⟩
    rw [← hdef] at hheader
    have e0 : header.take 4 = magic := by rw [hdef]; rfl
    have e4 : (header.drop 4).take 2 = leBytes 2 formatVersion := by rw [hdef]; rfl
    have e6 : (header.drop 6).take 2 = leBytes 2 (if raw then flagRaw else 0) := by rw [hdef]; rfl
    have e8 : (header.drop 8).take 8 = leBytes 8 count := by rw [hdef]; rfl
    have e16 : (header.drop 16).take 8 = leBytes 8 finalState := by rw [hdef]; rfl
    have e24 : (frame finalState count payload raw).drop headerLen = payload := rfl
    rw [unwrap, hlimit, hheader]
    simp only [ok_bind, okOr_some, e0, e4, e6, e8, e16, e24, hversion, hflags, h8 hcount, h8 hstate]
    cases raw with
    | false => rfl
    | true =>
        obtain rfl := hraw rfl
        rfl

/-! ## Sequences -/

lemma getSymbols_length {models : List Model} {d d' : RansDecoder} {symbols : List ℕ}
    (h : getSymbols models d = ok (symbols, d')) : symbols.length = models.length := by
  induction models generalizing d d' symbols with
  | nil =>
      rw [getSymbols, Outcome.ok.injEq, Prod.mk.injEq] at h
      rw [← h.1]
      rfl
  | cons model models ih =>
      rw [getSymbols, bind_eq_ok] at h
      obtain ⟨⟨symbol, d₁⟩, -, h⟩ := h
      rw [bind_eq_ok] at h
      obtain ⟨⟨rest, d₂⟩, hrest, h⟩ := h
      rw [Outcome.ok.injEq, Prod.mk.injEq] at h
      rw [← h.1, List.length_cons, List.length_cons, ih hrest]

lemma getBytes_length {model : Model} {n : ℕ} {d d' : RansDecoder} {output : List UInt8}
    (h : getBytes model n d = ok (output, d')) : output.length = n := by
  induction n generalizing d d' output with
  | zero =>
      rw [getBytes, Outcome.ok.injEq, Prod.mk.injEq] at h
      rw [← h.1]
      rfl
  | succ n ih =>
      rw [getBytes, bind_eq_ok] at h
      obtain ⟨⟨symbol, d₁⟩, -, h⟩ := h
      dsimp only at h
      split at h
      · simp at h
      · rw [bind_eq_ok] at h
        obtain ⟨⟨rest, d₂⟩, hrest, h⟩ := h
        rw [Outcome.ok.injEq, Prod.mk.injEq] at h
        rw [← h.1, List.length_cons, ih hrest]

/-- The symbols of a sequence come back, with either verification; the decoder ends in the
initial state with the payload consumed. -/
theorem decodeSequence_encodeSequence (c₁ c₂ : EntropyConfig) (hlimit₁ : c₁.base.limit = none)
    (hlimit₂ : c₂.base.limit = none) (models : Slice 8 Model) (symbols : List ℕ)
    (hlen : models.elems.length = symbols.length) (hsymbols : InAlphabets (models.elems.zip symbols)) :
    ∃ (input : Input) (finalState : ℕ) (payload : List UInt8),
      c₁.encodeSequence models.elems symbols = ok input.bytes ∧
      c₂.unwrap input.bytes = ok (symbols.length, finalState, false, payload) ∧
      getSymbols models.elems.reverse (.new finalState payload)
        = ok (symbols.reverse, ⟨ransL, payload, 0⟩) ∧
      c₂.decodeSequence models.elems input = ok symbols := by
  obtain ⟨e, hput, he, ⟨w, hw, hwlen⟩, hget⟩ :=
    putSymbols_getSymbols hsymbols RansEncoder.inRange_new
  -- the first symbol is put on without a flush, so that no word is pending at the end
  obtain ⟨d, hsyms, -, hexact⟩ := hget []
  obtain rfl := hexact (by decide)
  have hfst : (models.elems.zip symbols).reverse.map Prod.fst = models.elems.reverse := by
    rw [List.map_reverse, List.map_fst_zip hlen.le]
  have hsnd : (models.elems.zip symbols).reverse.map Prod.snd = symbols.reverse := by
    rw [List.map_reverse, List.map_snd_zip hlen.ge]
  rw [hfst, hsnd, List.append_nil] at hsyms
  change _ = ok (symbols.reverse, RansDecoder.mk ransL e.bytes 0) at hsyms
  have hcount := models.length_le
  have hziplen : (models.elems.zip symbols).length = symbols.length := by
    rw [List.length_zip, hlen, Nat.min_self]
  have hbytes : e.bytes.length ≤ 2 * symbols.length := by
    rw [hw, ← hziplen]
    exact hwlen
  have hfits : headerLen + e.bytes.length ≤ u64Max := by
    rw [isizeMax] at hcount
    rw [headerLen, u64Max]
    omega
  have hlimits {c : EntropyConfig} (h : c.base.limit = none) (n : ℕ) :
      c.base.enforceByteLimit n = ok () := by
    rw [Config.enforceByteLimit, h]
  have hunwrap : c₂.unwrap (frame e.state symbols.length e.bytes false)
      = ok (symbols.length, e.state, false, e.bytes) := by
    rw [unwrap_eq_ok]
    refine ⟨rfl, ?_, ?_, by simp, hlimits hlimit₂ _⟩
    · rw [isizeMax] at hcount
      rw [u64Max]
      omega
    · have hstate := he.2
      rw [u64Max]
      omega
  have hinput : (frame e.state symbols.length e.bytes false).length ≤ u64Max := by
    rw [frame_length]
    exact hfits
  refine ⟨⟨frame e.state symbols.length e.bytes false, hinput⟩, e.state, e.bytes, ?_, hunwrap,
    hsyms, ?_⟩
  · rw [encodeSequence, require_of hlen, ok_bind, hput, ok_bind, wrap_eq hfits (hlimits hlimit₁ _)]
    rfl
  · have hcap : withCapacity 4 symbols.length = ok () :=
      withCapacity_of_le (by rw [isizeMax] at hcount ⊢; omega)
    have hfinish : RansDecoder.finish ⟨ransL, e.bytes, 0⟩ = ok () := rfl
    rw [decodeSequence, hunwrap, ok_bind]
    dsimp only
    rw [require_of hlen.symm, ok_bind, if_neg (by simp), hcap, ok_bind, RansDecoder.new, hsyms,
      ok_bind]
    dsimp only
    rw [List.reverse_reverse, hfinish, ok_bind, hput]
    cases c₂.replayVerification with
    | false => rfl
    | true =>
        have hreplay : checkReplay e.state e.bytes e.state e.bytes = ok () := require_of ⟨rfl, rfl⟩
        simp only [if_true, ok_bind, hreplay]

/-- Two symbols whose models have three symbols and one. -/
theorem decodeSequence_encodeSequence_pair :
    let three : Model := ⟨[10923, 10923, 10922], by decide, by decide⟩
    let one : Model := ⟨[32768], by decide, by decide⟩
    let c := EntropyConfig.new Config.legacy
    ∃ (input : Input) (finalState : ℕ) (payload : List UInt8),
      c.encodeSequence [three, one] [2, 0] = ok input.bytes ∧
      c.withoutReplayVerification.unwrap input.bytes = ok (2, finalState, false, payload) ∧
      getSymbols [one, three] (.new finalState payload) = ok ([0, 2], ⟨ransL, payload, 0⟩) ∧
      c.withoutReplayVerification.decodeSequence [three, one] input = ok [2, 0] := by
  intro three one c
  exact decodeSequence_encodeSequence c c.withoutReplayVerification rfl rfl
    ⟨[three, one], by decide⟩ [2, 0] rfl (by
      intro p hp
      rcases List.mem_cons.mp hp with rfl | hp
      · decide
      · rw [List.mem_singleton.mp hp]
        decide)

/-! ## Canonical acceptance -/

/-- The input is a raw frame of `payload` within the byte limit. -/
def IsRawFrame (base : Config) (input : Input) (count : ℕ) (payload : List UInt8) : Prop :=
  input.bytes = frame 0 count payload true ∧ base.enforceByteLimit input.bytes.length = ok ()

/-- What a frame decompresses to compresses to the frame. -/
def DecompressCanonical (c : EntropyConfig) (model : Model) (input : Input) : Prop :=
  ∀ output, c.decompress input model = ok output → c.compress output model = ok input.bytes

/-- What a frame decodes to encodes to the frame. -/
def SequenceCanonical (c : EntropyConfig) (models : List Model) (input : Input) : Prop :=
  ∀ symbols, c.decodeSequence models input = ok symbols →
    c.encodeSequence models symbols = ok input.bytes

/-- A raw frame is not a coded frame. -/
lemma frame_raw_ne (s₁ s₂ n₁ n₂ : ℕ) (p₁ p₂ : List UInt8) :
    frame s₁ n₁ p₁ true ≠ frame s₂ n₂ p₂ false := by
  intro h
  have hbyte := congrArg (fun bs => bs[6]?) h
  simp [frame, magic, leBytes, flagRaw] at hbyte

/-- Whatever is wrapped as coded is not a raw frame. -/
lemma wrap_ne_raw {c : EntropyConfig} {finalState n₁ n₂ : ℕ} {p₁ p₂ : List UInt8} :
    c.wrap finalState n₁ p₁ false ≠ ok (frame 0 n₂ p₂ true) := by
  intro h
  rw [wrap] at h
  simp only [bind_eq_ok, Outcome.ok.injEq] at h
  obtain ⟨total, -, ⟨⟩, -, h⟩ := h
  exact frame_raw_ne _ _ _ _ _ _ h.symm

section Canonical

variable (base : Config)

/-- The profile of the claims on canonical frames: replay, and no raw fallback. -/
def strict : EntropyConfig := (EntropyConfig.new base).withoutRawFallback

lemma strict_unwrap_raw {base : Config} {input : Input} {count : ℕ} {payload : List UInt8}
    (hraw : IsRawFrame base input count payload) (hcount : count ≤ u64Max) :
    (strict base).unwrap input.bytes = ok (count, 0, true, payload) :=
  unwrap_eq_ok.mpr ⟨hraw.1, hcount, Nat.zero_le _, fun _ => rfl, hraw.2⟩

/-- The frame that is wrapped around a replayed payload is the one that was unwrapped. -/
lemma strict_wrap {base : Config} {input : Input} {count finalState : ℕ} {payload : List UInt8}
    (hunwrap : (strict base).unwrap input.bytes = ok (count, finalState, false, payload)) :
    (strict base).wrap finalState count payload false = ok input.bytes := by
  obtain ⟨hinput, -, -, -, hlimit⟩ := unwrap_eq_ok.mp hunwrap
  have hlength : input.bytes.length = headerLen + payload.length := by
    rw [hinput, frame_length]
  have hfits := input.length_le
  rw [hlength] at hfits hlimit
  rw [wrap_eq hfits hlimit, hinput]
  rfl

lemma decompressCanonical_iff (model : Model) (input : Input) :
    DecompressCanonical (strict base) model input ↔
      ¬ ∃ payload, IsRawFrame base input payload.length payload := by
  constructor
  · rintro hcanonical ⟨payload, hraw⟩
    have hcount : payload.length ≤ u64Max := by
      have hle := input.length_le
      rw [hraw.1, frame_length] at hle
      omega
    have haccept : (strict base).decompress input model = ok payload := by
      rw [decompress, strict_unwrap_raw hraw hcount, ok_bind]
      dsimp only
      rw [if_pos rfl, require_of rfl, ok_bind]
    have hcompress := hcanonical payload haccept
    rw [compress, bind_eq_ok] at hcompress
    obtain ⟨e, -, hwrap⟩ := hcompress
    rw [hraw.1] at hwrap
    exact wrap_ne_raw hwrap
  · intro hcoded output haccept
    rw [decompress, bind_eq_ok] at haccept
    obtain ⟨⟨count, finalState, raw, payload⟩, hunwrap, haccept⟩ := haccept
    dsimp only at haccept
    cases raw with
    | true =>
        -- a raw frame has state zero and as many bytes as it counts
        obtain ⟨hinput, -, -, hstate, hlimit⟩ := unwrap_eq_ok.mp hunwrap
        obtain rfl := hstate rfl
        rw [if_pos rfl, bind_eq_ok] at haccept
        obtain ⟨⟨⟩, hlength, -⟩ := haccept
        obtain rfl := require_eq_ok.mp hlength
        exact absurd ⟨payload, hinput, hlimit⟩ hcoded
    | false =>
        rw [if_neg (by simp)] at haccept
        simp only [bind_eq_ok] at haccept
        obtain ⟨⟨⟩, -, ⟨bytes, d⟩, hget, haccept⟩ := haccept
        dsimp only at haccept
        obtain ⟨⟨⟩, -, haccept⟩ := haccept
        rw [show (strict base).replayVerification = true by rfl, if_pos rfl] at haccept
        simp only [bind_eq_ok] at haccept
        obtain ⟨e, hput, ⟨⟩, hreplay, hvalue⟩ := haccept
        obtain rfl := Outcome.ok.inj hvalue
        obtain ⟨hstate, hpayload⟩ := require_eq_ok.mp hreplay
        rw [compress, hput, ok_bind]
        dsimp only
        rw [show (strict base).rawFallback = false by rfl, Bool.false_and]
        rw [if_neg (by simp), hstate, hpayload, List.length_reverse, getBytes_length hget]
        exact strict_wrap hunwrap

lemma sequenceCanonical_iff (models : Slice 8 Model) (input : Input) :
    SequenceCanonical (strict base) models.elems input ↔
      ¬ ∃ payload, IsRawFrame base input models.elems.length payload ∧
        payload.length = models.elems.length * 4 := by
  have hmodels := models.length_le
  rw [isizeMax] at hmodels
  constructor
  · rintro hcanonical ⟨payload, hraw, hlength⟩
    have hcount : models.elems.length ≤ u64Max := by
      rw [u64Max]
      omega
    have haccept : (strict base).decodeSequence models.elems input
        = ok (wordsOf models.elems.length payload) := by
      rw [decodeSequence, strict_unwrap_raw hraw hcount, ok_bind]
      dsimp only
      rw [require_of rfl, ok_bind, if_pos rfl, require_of (by rw [u64Max]; omega), ok_bind,
        require_of hlength, ok_bind, withCapacity_of_le (by rw [isizeMax]; omega), ok_bind]
    have hencode := hcanonical _ haccept
    simp only [encodeSequence, bind_eq_ok] at hencode
    obtain ⟨⟨⟩, -, e, -, hwrap⟩ := hencode
    rw [hraw.1] at hwrap
    exact wrap_ne_raw hwrap
  · intro hcoded symbols haccept
    rw [decodeSequence, bind_eq_ok] at haccept
    obtain ⟨⟨count, finalState, raw, payload⟩, hunwrap, haccept⟩ := haccept
    dsimp only at haccept
    rw [bind_eq_ok] at haccept
    obtain ⟨⟨⟩, hcount, haccept⟩ := haccept
    obtain rfl := require_eq_ok.mp hcount
    cases raw with
    | true =>
        obtain ⟨hinput, -, -, hstate, hlimit⟩ := unwrap_eq_ok.mp hunwrap
        obtain rfl := hstate rfl
        simp only [if_true, bind_eq_ok, require_eq_ok] at haccept
        obtain ⟨⟨⟩, -, ⟨⟩, hlength, -⟩ := haccept
        exact absurd ⟨payload, ⟨hinput, hlimit⟩, hlength⟩ hcoded
    | false =>
        rw [if_neg (by simp)] at haccept
        simp only [bind_eq_ok] at haccept
        obtain ⟨⟨⟩, -, ⟨decoded, d⟩, hget, haccept⟩ := haccept
        dsimp only at haccept
        obtain ⟨⟨⟩, -, haccept⟩ := haccept
        rw [show (strict base).replayVerification = true by rfl, if_pos rfl] at haccept
        simp only [bind_eq_ok] at haccept
        obtain ⟨e, hput, ⟨⟩, hreplay, hvalue⟩ := haccept
        obtain rfl := Outcome.ok.inj hvalue
        obtain ⟨hstate, hpayload⟩ := require_eq_ok.mp hreplay
        have hlength : decoded.reverse.length = models.elems.length := by
          rw [List.length_reverse, getSymbols_length hget, List.length_reverse]
        rw [encodeSequence, require_of hlength.symm, ok_bind, hput, ok_bind, hlength, hstate,
          hpayload]
        exact strict_wrap hunwrap

/-- Both directions of acceptance: exactly the raw frames are accepted without being what the
profile writes. -/
theorem canonical_iff (model : Model) (models : Slice 8 Model) (input : Input) :
    (DecompressCanonical (strict base) model input ↔
        ¬ ∃ payload, IsRawFrame base input payload.length payload) ∧
      (SequenceCanonical (strict base) models.elems input ↔
        ¬ ∃ payload, IsRawFrame base input models.elems.length payload ∧
          payload.length = models.elems.length * 4) :=
  ⟨decompressCanonical_iff base model input, sequenceCanonical_iff base models input⟩

end Canonical

/-- The raw frame of a single byte is decompressed with raw storage disabled. -/
theorem decompress_raw_frame :
    ¬ ∀ (base : Config) (model : Model) (input : Input),
      DecompressCanonical (strict base) model input := by
  intro h
  have hcanonical := h Config.standard ⟨[32768], by decide, by decide⟩
    ⟨frame 0 1 [7] true, by decide⟩ [7] (by decide)
  revert hcanonical
  decide

end RustBinary.Entropy
