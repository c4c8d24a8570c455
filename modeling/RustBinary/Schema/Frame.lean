import RustBinary.Native.Format
import RustBinary.Schema.Separation

/-!
# Fingerprinted frames

A header with the fingerprint of a type under a configuration, and the payload.  A reader takes the
payload behind its own header and no other one; the three ways to write a frame agree on it.
-/

namespace RustBinary.Schema

open Lib Lib.Outcome Native

/-! ## The header -/

def headerLen : ℕ := 16

def version : ℕ := 1

def frameMagic : List UInt8 := [0x52, 0x42, 0x46, 0x50]

/-- `encode_header`. -/
def encodeHeader (magic : List UInt8) (fingerprint : ℕ) : List UInt8 :=
  magic ++ (leBytes 2 version ++ ([0, 0] ++ leBytes 8 fingerprint))

/-- `validate_header`. -/
def validateHeader (magic input : List UInt8) (expected : ℕ) : Outcome Error (List UInt8) := do
  let bytes ← okOr (slice input 0 headerLen) (.invalidFrame "truncated fingerprint header")
  require (bytes.take 4 = magic) (.invalidFrame "bad fingerprint magic")
  require (leNat ((bytes.drop 4).take 2) = version)
    (.invalidFrame "unsupported fingerprint frame version")
  require ((bytes.drop 6).take 2 = [0, 0]) (.invalidFrame "reserved fingerprint flags are not zero")
  let actual := leNat ((bytes.drop 8).take 8)
  require (actual = expected) (.schemaMismatch expected actual)
  pure (input.drop headerLen)

section Header

variable {magic input payload : List UInt8} {fingerprint expected : ℕ}

lemma length_encodeHeader (hmagic : magic.length = 4) (fingerprint : ℕ) :
    (encodeHeader magic fingerprint).length = headerLen := by
  simp [encodeHeader, headerLen, hmagic]

/-- The fields of a header. -/
lemma encodeHeader_fields (hmagic : magic.length = 4) (fingerprint : ℕ) :
    (encodeHeader magic fingerprint).take 4 = magic ∧
      ((encodeHeader magic fingerprint).drop 4).take 2 = leBytes 2 version ∧
      ((encodeHeader magic fingerprint).drop 6).take 2 = [0, 0] ∧
      ((encodeHeader magic fingerprint).drop 8).take 8 = leBytes 8 fingerprint := by
  obtain ⟨a, b, c, d, rfl⟩ : ∃ a b c d, magic = [a, b, c, d] := by
    match magic, hmagic with
    | [a, b, c, d], _ => exact ⟨a, b, c, d, rfl⟩
  exact ⟨rfl, rfl, rfl, rfl⟩

/-- Sixteen bytes as the fields of a header. -/
lemma header_split {header : List UInt8} (hlen : header.length = headerLen) :
    header = header.take 4 ++ ((header.drop 4).take 2 ++ ((header.drop 6).take 2 ++
      (header.drop 8).take 8)) := by
  have hlast : (header.drop 8).take 8 = header.drop 8 := List.take_of_length_le (by
    rw [List.length_drop, hlen, headerLen])
  rw [hlast, ← List.drop_drop (i := 2) (j := 6), List.take_append_drop,
    ← List.drop_drop (i := 2) (j := 4), List.take_append_drop, List.take_append_drop]

/-- Behind its own header a payload is taken. -/
lemma validateHeader_encodeHeader (hmagic : magic.length = 4) (hword : fingerprint < 2 ^ 64)
    (payload : List UInt8) (expected : ℕ) :
    validateHeader magic (encodeHeader magic fingerprint ++ payload) expected =
      if fingerprint = expected then .ok payload
      else .err (.schemaMismatch expected fingerprint) := by
  have hlen := length_encodeHeader hmagic fingerprint
  have hslice : slice (encodeHeader magic fingerprint ++ payload) 0 headerLen
      = some (encodeHeader magic fingerprint) := by
    have hself := slice_append [] (encodeHeader magic fingerprint) payload
    rwa [List.nil_append, List.length_nil, Nat.zero_add, hlen] at hself
  obtain ⟨h1, h2, h3, h4⟩ := encodeHeader_fields hmagic fingerprint
  rw [validateHeader, hslice, okOr_some, ok_bind, require_of h1, ok_bind, h2,
    require_of (leNat_leBytes (by decide)), ok_bind, require_of h3, ok_bind, h4,
    leNat_leBytes (by simpa using hword)]
  by_cases heq : fingerprint = expected
  · rw [if_pos heq]
    dsimp only
    rw [require_of heq, ok_bind, ← hlen, List.drop_left]
    rfl
  · rw [if_neg heq]
    dsimp only
    rw [require, if_neg heq]
    rfl

/-- What is accepted is a payload behind the header. -/
lemma validateHeader_eq_ok (hmagic : magic.length = 4) (hword : expected < 2 ^ 64) :
    validateHeader magic input expected = .ok payload ↔
      input = encodeHeader magic expected ++ payload := by
  constructor
  · intro h
    rw [validateHeader] at h
    obtain ⟨header, hheader, h⟩ := bind_eq_ok.mp h
    obtain ⟨_, h1, h⟩ := bind_eq_ok.mp h
    obtain ⟨_, h2, h⟩ := bind_eq_ok.mp h
    obtain ⟨_, h3, h⟩ := bind_eq_ok.mp h
    obtain ⟨_, h4, h⟩ := bind_eq_ok.mp h
    obtain rfl := Outcome.ok.inj h
    have hslice := okOr_eq_ok.mp hheader
    have hlen := slice_length hslice
    rw [Nat.sub_zero] at hlen
    have hfront : header = input.take headerLen := (slice_eq_some.mp hslice).2.2.symm
    have h2 := congrArg (leBytes 2) (require_eq_ok.mp h2)
    have h4 := congrArg (leBytes 8) (require_eq_ok.mp h4)
    have hshort : ((header.drop 4).take 2).length = 2 := by
      rw [List.length_take, List.length_drop, hlen, headerLen]
      rfl
    have hlong : ((header.drop 8).take 8).length = 8 := by
      rw [List.length_take, List.length_drop, hlen, headerLen]
      rfl
    have hback := leBytes_leNat ((header.drop 4).take 2)
    have hback' := leBytes_leNat ((header.drop 8).take 8)
    rw [hshort] at hback
    rw [hlong] at hback'
    rw [hback] at h2
    rw [hback'] at h4
    have hall : header = encodeHeader magic expected := by
      rw [header_split hlen, require_eq_ok.mp h1, h2, require_eq_ok.mp h3, h4]
      rfl
    rw [← hall, hfront, List.take_append_drop]
  · rintro rfl
    rw [validateHeader_encodeHeader hmagic hword, if_pos rfl]

end Header

/-! ## Frames -/

structure FingerprintedConfig where
  config : Config

namespace FingerprintedConfig

variable [Target] (c : FingerprintedConfig) (fromNextjson : NextjsonError → Error)
  (typeFingerprint : ℕ)

/-- The fingerprint that is expected for a type with the hash `typeFingerprint`. -/
def fingerprint : ℕ := configFingerprint typeFingerprint c.config

/-- The header of a frame of the type. -/
def header : List UInt8 := encodeHeader frameMagic (c.fingerprint typeFingerprint)

/-- `serialize`. -/
def serialize (value : Nextencode) : Outcome Error (List UInt8) := do
  let payload ← Native.serialize fromNextjson c.config value
  -- `try_reserve_exact`
  require (saturatingAdd headerLen payload.length ≤ isizeMax) (.sizeLimit u64Max)
  pure (c.header typeFingerprint ++ payload)

/-- `serialized_size`. -/
def serializedSize (value : Nextencode) : Outcome Error ℕ := do
  let payload ← Native.serializedSize fromNextjson c.config value
  okOr (checkedAdd payload headerLen) (.sizeLimit u64Max)

/-- The error of the payload, for the frame. -/
def framedError (available : ℕ) : Error → Error
  | .bufferTooSmall required _ => .bufferTooSmall (saturatingAdd headerLen required) available
  | error => error

/-- `serialize_into_slice`, and the memory that it leaves. -/
def serializeIntoSlice (output : List UInt8) (value : Nextencode) :
    Outcome Error ℕ × List UInt8 :=
  if output.length < headerLen then
    (Native.serializedSize fromNextjson c.config value >>= fun payload =>
      .err (.bufferTooSmall (saturatingAdd headerLen payload) output.length), output)
  else
    let body := Native.serializeIntoSlice fromNextjson c.config (output.drop headerLen) value
    (body.1.mapErr (framedError output.length) >>= fun written => .ok (headerLen + written),
      c.header typeFingerprint ++ body.2)

/-- `deserialize`. -/
def deserialize {V : Type} (nextdecode : Dec V) (input : List UInt8) : Outcome Error V := do
  let payload ← validateHeader frameMagic input (c.fingerprint typeFingerprint)
  Native.deserialize fromNextjson nextdecode c.config payload

variable {c fromNextjson typeFingerprint}

lemma length_header : (c.header typeFingerprint).length = headerLen :=
  length_encodeHeader rfl _

lemma fingerprint_lt (hword : typeFingerprint < 2 ^ 64) :
    c.fingerprint typeFingerprint < 2 ^ 64 := configFingerprint_lt hword c.config

/-- What is read is the payload behind the header of the reader. -/
lemma deserialize_eq_ok (hword : typeFingerprint < 2 ^ 64) {V : Type} {nextdecode : Dec V}
    {input : List UInt8} {value : V} :
    c.deserialize fromNextjson typeFingerprint nextdecode input = .ok value ↔
      ∃ payload, input = c.header typeFingerprint ++ payload ∧
        Native.deserialize fromNextjson nextdecode c.config payload = .ok value := by
  rw [deserialize, bind_eq_ok]
  exact exists_congr fun payload => and_congr_left fun _ =>
    validateHeader_eq_ok rfl (fingerprint_lt hword)

/-- A frame with another fingerprint is refused. -/
lemma deserialize_header {fingerprint : ℕ} (hfingerprint : fingerprint < 2 ^ 64)
    (hne : fingerprint ≠ c.fingerprint typeFingerprint) {V : Type} (nextdecode : Dec V)
    (payload : List UInt8) :
    c.deserialize fromNextjson typeFingerprint nextdecode
        (encodeHeader frameMagic fingerprint ++ payload)
      = .err (.schemaMismatch (c.fingerprint typeFingerprint) fingerprint) := by
  rw [deserialize, validateHeader_encodeHeader rfl hfingerprint, if_neg hne, err_bind]

end FingerprintedConfig

/-- **Fingerprinted frames.** The frame of a value is read back by a reader of its type and its
configuration.  A reader accepts the payloads that its configuration accepts, behind its own header,
and nothing else.  It refuses the frames of every type with another hash, and those under every
configuration that differs in one byte of what is hashed, as in the byte order, in the integers or
in the policy for trailing bytes. -/
theorem fingerprinted_frames [Target] (fromNextjson : NextjsonError → Error) {V : Type}
    (type : WireType V) {typeFingerprint : ℕ} (hword : typeFingerprint < 2 ^ 64)
    (c : FingerprintedConfig) :
    (∀ value frame, c.serialize fromNextjson typeFingerprint (.ofTree (type.tree value)) = .ok frame →
      c.deserialize fromNextjson typeFingerprint type.nextdecode frame = .ok value) ∧
    (∀ input value, c.deserialize fromNextjson typeFingerprint type.nextdecode input = .ok value ↔
      ∃ payload, input = c.header typeFingerprint ++ payload ∧
        Native.deserialize fromNextjson type.nextdecode c.config payload = .ok value) ∧
    (∀ typeFingerprint' < 2 ^ 64, typeFingerprint' ≠ typeFingerprint → ∀ payload,
      c.deserialize fromNextjson typeFingerprint type.nextdecode
          (c.header typeFingerprint' ++ payload)
        = .err (.schemaMismatch (c.fingerprint typeFingerprint)
            (c.fingerprint typeFingerprint'))) ∧
    (∀ c' : FingerprintedConfig, OneByteApart (fedBytes c'.config) (fedBytes c.config) →
      ∀ payload, c.deserialize fromNextjson typeFingerprint type.nextdecode
          (c'.header typeFingerprint ++ payload)
        = .err (.schemaMismatch (c.fingerprint typeFingerprint)
            (c'.fingerprint typeFingerprint))) ∧
    ∀ a b : Config, OneFieldApart a b → OneByteApart (fedBytes a) (fedBytes b) := by
  refine ⟨?_, fun _ _ => FingerprintedConfig.deserialize_eq_ok hword, ?_, ?_,
    fun _ _ => oneByteApart_of_oneFieldApart⟩
  · intro value frame h
    obtain ⟨payload, hpayload, h⟩ := bind_eq_ok.mp h
    obtain ⟨_, -, h⟩ := bind_eq_ok.mp h
    obtain rfl := Outcome.ok.inj h
    exact (FingerprintedConfig.deserialize_eq_ok hword).mpr
      ⟨payload, rfl, type.deserialize_serialize fromNextjson value payload hpayload⟩
  · intro typeFingerprint' hword' hne payload
    exact FingerprintedConfig.deserialize_header (FingerprintedConfig.fingerprint_lt hword')
      (fun heq => hne (configFingerprint_inj hword' hword heq)) _ payload
  · intro c' hapart payload
    exact FingerprintedConfig.deserialize_header (FingerprintedConfig.fingerprint_lt hword)
      (configFingerprint_ne hword hapart) _ payload

section Sinks

variable [Target] {c : FingerprintedConfig} {fromNextjson : NextjsonError → Error}
  {typeFingerprint : ℕ} {value : Nextencode} {output frame : List UInt8}

namespace FingerprintedConfig

/-- A frame that is serialized is the payload behind the header, and a vector has room for it. -/
lemma serialize_eq_ok :
    c.serialize fromNextjson typeFingerprint value = .ok frame ↔
      ∃ payload, Native.serialize fromNextjson c.config value = .ok payload ∧
        headerLen + payload.length ≤ isizeMax ∧ frame = c.header typeFingerprint ++ payload := by
  have hmax : isizeMax < u64Max := by decide
  have hroom (n : ℕ) : saturatingAdd headerLen n ≤ isizeMax ↔ headerLen + n ≤ isizeMax := by
    rw [saturatingAdd]
    omega
  rw [serialize, bind_eq_ok]
  refine exists_congr fun payload => and_congr_right fun _ => ?_
  rw [bind_eq_ok]
  constructor
  · rintro ⟨_, hreserve, h⟩
    exact ⟨(hroom _).mp (require_eq_ok.mp hreserve), (Outcome.ok.inj h).symm⟩
  · rintro ⟨hle, rfl⟩
    exact ⟨(), require_of ((hroom _).mpr hle), rfl⟩

/-- Memory with room for the header holds the header and what the payload leaves. -/
lemma serializeIntoSlice_of_le (hle : headerLen ≤ output.length) :
    c.serializeIntoSlice fromNextjson typeFingerprint output value =
      (((Native.serializeIntoSlice fromNextjson c.config (output.drop headerLen) value).1.mapErr
          (framedError output.length) >>= fun written => .ok (headerLen + written)),
        c.header typeFingerprint ++
          (Native.serializeIntoSlice fromNextjson c.config (output.drop headerLen) value).2) := by
  rw [serializeIntoSlice, if_neg (Nat.not_lt.mpr hle)]

/-- In memory with room for it there is the frame, with what was behind it. -/
lemma serializeIntoSlice_of_serialize
    (h : c.serialize fromNextjson typeFingerprint value = .ok frame)
    (hroom : frame.length ≤ output.length) :
    c.serializeIntoSlice fromNextjson typeFingerprint output value =
      (.ok frame.length, frame ++ output.drop frame.length) := by
  obtain ⟨payload, hpayload, -, rfl⟩ := serialize_eq_ok.mp h
  rw [List.length_append, length_header] at hroom ⊢
  obtain ⟨hfst, hsnd⟩ :=
    serializeIntoSlice_eq fromNextjson c.config value (output.drop headerLen)
  have hfits : payload.length ≤ (output.drop headerLen).length := by
    rw [List.length_drop]
    omega
  rw [hpayload, ok_bind, if_neg (Nat.not_lt.mpr hfits)] at hfst
  rw [serializeIntoSlice_of_le (by omega), hfst, hsnd payload hpayload,
    List.take_of_length_le hfits, List.drop_drop, List.append_assoc]
  rfl

/-- Memory without room for the frame asks for as much as the frame takes. -/
lemma serializeIntoSlice_of_lt (h : c.serialize fromNextjson typeFingerprint value = .ok frame)
    (hroom : output.length < frame.length) :
    (c.serializeIntoSlice fromNextjson typeFingerprint output value).1 =
      .err (.bufferTooSmall frame.length output.length) := by
  obtain ⟨payload, hpayload, hmax, rfl⟩ := serialize_eq_ok.mp h
  rw [List.length_append, length_header] at hroom ⊢
  have hexact : saturatingAdd headerLen payload.length = headerLen + payload.length := by
    have : isizeMax < u64Max := by decide
    rw [saturatingAdd]
    omega
  by_cases hhead : output.length < headerLen
  · rw [serializeIntoSlice, if_pos hhead, serializedSize_eq, hpayload, ok_bind, ok_bind, hexact]
  · obtain ⟨hfst, -⟩ :=
      serializeIntoSlice_eq fromNextjson c.config value (output.drop headerLen)
    have hfits : (output.drop headerLen).length < payload.length := by
      rw [List.length_drop]
      omega
    rw [hpayload, ok_bind, if_pos hfits] at hfst
    rw [serializeIntoSlice_of_le (by omega), hfst]
    change Outcome.err (framedError _ (.bufferTooSmall _ _)) = _
    rw [framedError, hexact]

/-- What is written into memory is the frame. -/
lemma serialize_of_serializeIntoSlice (hmax : output.length ≤ isizeMax) {written : ℕ}
    {memory : List UInt8}
    (h : c.serializeIntoSlice fromNextjson typeFingerprint output value = (.ok written, memory)) :
    ∃ frame, c.serialize fromNextjson typeFingerprint value = .ok frame ∧
      written = frame.length ∧ frame.length ≤ output.length ∧
      memory = frame ++ output.drop frame.length := by
  by_cases hhead : output.length < headerLen
  · rw [serializeIntoSlice, if_pos hhead] at h
    obtain ⟨_, -, hbad⟩ := bind_eq_ok.mp (congrArg Prod.fst h)
    cases hbad
  · obtain ⟨hfst, -⟩ :=
      serializeIntoSlice_eq fromNextjson c.config value (output.drop headerLen)
    have hok := congrArg Prod.fst h
    rw [serializeIntoSlice_of_le (by omega)] at hok
    obtain ⟨body, hbody, -⟩ := bind_eq_ok.mp hok
    rw [hfst, mapErr_eq_ok, bind_eq_ok] at hbody
    obtain ⟨payload, hpayload, hbody⟩ := hbody
    split_ifs at hbody with hfits
    rw [List.length_drop] at hfits
    have hframe : c.serialize fromNextjson typeFingerprint value =
        .ok (c.header typeFingerprint ++ payload) :=
      serialize_eq_ok.mpr ⟨payload, hpayload, by omega, rfl⟩
    have hroom : (c.header typeFingerprint ++ payload).length ≤ output.length := by
      rw [List.length_append, length_header]
      omega
    rw [serializeIntoSlice_of_serialize hframe hroom] at h
    obtain ⟨hwritten, rfl⟩ := Prod.mk.inj h
    exact ⟨_, hframe, (Outcome.ok.inj hwritten).symm, hroom, rfl⟩

end FingerprintedConfig

open FingerprintedConfig in
/-- **The sinks of a frame.** A vector, a counter and caller-owned memory agree on a frame: on its
length, on its bytes, on the room that it takes where there is too little of it, the header
included, and on the error of the payload.  A vector alone refuses a frame that spans more than
`isize::MAX` bytes, for which no memory has room. -/
theorem fingerprinted_sinks_agree (c : FingerprintedConfig) (fromNextjson : NextjsonError → Error)
    (typeFingerprint : ℕ) (value : Nextencode) :
    (∀ frame, c.serialize fromNextjson typeFingerprint value = .ok frame →
      c.serializedSize fromNextjson value = .ok frame.length ∧
        ∀ output, (c.serializeIntoSlice fromNextjson typeFingerprint output value).1 =
            (if frame.length ≤ output.length then .ok frame.length
            else .err (.bufferTooSmall frame.length output.length)) ∧
          (frame.length ≤ output.length →
            (c.serializeIntoSlice fromNextjson typeFingerprint output value).2 =
              frame ++ output.drop frame.length)) ∧
    (∀ output written memory, output.length ≤ isizeMax →
      c.serializeIntoSlice fromNextjson typeFingerprint output value = (.ok written, memory) →
      ∃ frame, c.serialize fromNextjson typeFingerprint value = .ok frame ∧
        written = frame.length ∧ memory = frame ++ output.drop written) ∧
    (∀ n, c.serializedSize fromNextjson value = .ok n → n ≤ isizeMax →
      ∃ frame, c.serialize fromNextjson typeFingerprint value = .ok frame ∧ frame.length = n) ∧
    ∀ e, Native.serialize fromNextjson c.config value = .err e →
      c.serialize fromNextjson typeFingerprint value = .err e ∧
        c.serializedSize fromNextjson value = .err e ∧
        ∀ output, (c.serializeIntoSlice fromNextjson typeFingerprint output value).1 =
          .err (if output.length < headerLen then e else framedError output.length e) := by
  refine ⟨fun frame h => ⟨?_, fun output => ⟨?_, fun hroom => ?_⟩⟩, ?_, ?_, ?_⟩
  · obtain ⟨payload, hpayload, hmax, rfl⟩ := serialize_eq_ok.mp h
    have hcount : checkedAdd payload.length headerLen = some (payload.length + headerLen) := by
      have : isizeMax < u64Max := by decide
      rw [checkedAdd, if_pos (by omega)]
    rw [FingerprintedConfig.serializedSize, Native.serializedSize_eq, hpayload, ok_bind, ok_bind,
      hcount, okOr_some, List.length_append, length_header, Nat.add_comm]
  · split_ifs with hroom
    · rw [serializeIntoSlice_of_serialize h hroom]
    · exact serializeIntoSlice_of_lt h (Nat.lt_of_not_le hroom)
  · rw [serializeIntoSlice_of_serialize h hroom]
  · intro output written memory hmax h
    obtain ⟨frame, hframe, rfl, -, hmemory⟩ := serialize_of_serializeIntoSlice hmax h
    exact ⟨frame, hframe, rfl, hmemory⟩
  · intro n h hmax
    rw [FingerprintedConfig.serializedSize, Native.serializedSize_eq] at h
    obtain ⟨count, hcount, h⟩ := bind_eq_ok.mp h
    obtain ⟨payload, hpayload, hlen⟩ := bind_eq_ok.mp hcount
    obtain rfl := Outcome.ok.inj hlen
    obtain rfl := checkedAdd_eq_some (okOr_eq_ok.mp h)
    refine ⟨_, serialize_eq_ok.mpr ⟨payload, hpayload, by omega, rfl⟩, ?_⟩
    rw [List.length_append, length_header, Nat.add_comm]
  · intro e h
    refine ⟨?_, ?_, fun output => ?_⟩
    · rw [FingerprintedConfig.serialize, h, err_bind]
    · rw [FingerprintedConfig.serializedSize, Native.serializedSize_eq, h, err_bind, err_bind]
    · split_ifs with hhead
      · rw [FingerprintedConfig.serializeIntoSlice, if_pos hhead, Native.serializedSize_eq, h,
          err_bind, err_bind]
      · obtain ⟨hfst, -⟩ :=
          serializeIntoSlice_eq fromNextjson c.config value (output.drop headerLen)
        rw [serializeIntoSlice_of_le (Nat.le_of_not_lt hhead), hfst, h]
        rfl

end Sinks

section Witness

local instance littleEndian : Target := ⟨true⟩

/-- Another hash than the one of the reader is refused. -/
theorem fingerprinted_frames_text :
    let c : FingerprintedConfig := ⟨.standard⟩
    let frame := c.header 7 ++ [0x09, 2, 104, 105]
    c.deserialize (fun _ => .invalidUtf8) 7 Decoder.string frame = .ok "hi" ∧
      c.deserialize (fun _ => .invalidUtf8) 8 Decoder.string frame
        = .err (.schemaMismatch (c.fingerprint 8) (c.fingerprint 7)) := by
  have hserialize : (⟨.standard⟩ : FingerprintedConfig).serialize (fun _ => .invalidUtf8) 7
      (.ofTree (WireType.text.tree "hi")) =
        .ok ((⟨.standard⟩ : FingerprintedConfig).header 7 ++ [0x09, 2, 104, 105]) := by
    decide +kernel
  have hframes (typeFingerprint : ℕ) (h : typeFingerprint < 2 ^ 64) :=
    fingerprinted_frames (fun _ => .invalidUtf8) WireType.text h ⟨.standard⟩
  exact ⟨(hframes 7 (by decide)).1 "hi" _ hserialize,
    (hframes 8 (by decide)).2.2.1 7 (by decide) (by decide) _⟩

end Witness

end RustBinary.Schema
