import RustBinary.Cbor.Format
import RustBinary.Encryption.Exact
import RustBinary.Lib.Reader
import RustBinary.Schema.Frame
import RustBinary.Trust.Session

/-!
# Reading from a reader

The plain formats read a reader to its end, up to one byte more than their limit, and decode what
they have got.  The framed formats and the sessions take a frame off it by asking for the header and
then for the length that it declares.  The reader may hand the bytes out in any pieces, be
interrupted, and break off anywhere: the plain formats do what they do on all of the bytes, and
never take a part for the whole; the framed ones come back with the values of the frames that have
come whole, and the next call fails.
-/

namespace RustBinary

open Lib Lib.Outcome Lib.Reading

/-! ## Whole streams -/

/-- `deserialize_from` of the adapters, with the limit of a configuration and its decoder. -/
def readWhole {V : Type} (limit : Option ℕ) (decode : List UInt8 → Outcome Error V) :
    Reading UInt8 Compression.Error V := do
  let max := limit.getD u64Max
  let readCap := saturatingAdd max 1
  let bytes ← Reading.readToEnd readCap
  done (require (bytes.length ≤ max) (.wire (.sizeLimit max)))
  done ((decode bytes).mapErr .wire)

/-- `deserialize_from` of the fingerprinted profiles, in front of that of their payload. -/
def readBehindHeader {V : Type} (magic : List UInt8) (expected : ℕ)
    (payload : Reading UInt8 Compression.Error V) : Reading UInt8 Compression.Error V := do
  let frameHeader ← Reading.readExact Schema.headerLen Compression.Error.unexpectedEof
  let _ ← done ((Schema.validateHeader magic frameHeader expected).mapErr .wire)
  payload

section Formats

variable {V : Type} (fromNextjson : NextjsonError → Error)

/-- `Config::deserialize_from`. -/
def Native.deserializeFrom (nextdecode : Dec V) (config : Config) :
    Reading UInt8 Compression.Error V :=
  readWhole config.limit (deserialize fromNextjson nextdecode config)

/-- `CborConfig::deserialize_from`. -/
def Cbor.CborConfig.deserializeFrom (c : CborConfig) (nextdecode : Dec V) :
    Reading UInt8 Compression.Error V :=
  readWhole c.base.limit (c.deserialize fromNextjson nextdecode)

/-- `FingerprintedConfig::deserialize_from`. -/
def Schema.FingerprintedConfig.deserializeFrom [Target] (c : FingerprintedConfig)
    (typeFingerprint : ℕ) (nextdecode : Native.Dec V) : Reading UInt8 Compression.Error V :=
  readBehindHeader frameMagic (c.fingerprint typeFingerprint)
    (Native.deserializeFrom fromNextjson nextdecode c.config)

end Formats

/-- What comes of reading a whole stream, up to the failure behind it if there is one. -/
def wholeAnswer {V φ : Type} (limit : Option ℕ) (fault : Option φ)
    (decode : List UInt8 → Outcome Error V) (bytes : List UInt8) :
    Outcome (ReadError φ Compression.Error) V :=
  if limit.getD u64Max < bytes.length then .err (.error (.wire (.sizeLimit (limit.getD u64Max))))
  else
    match fault with
    | some fault => .err (.io fault)
    | none => (decode bytes).mapErr fun e => .error (.wire e)

section Whole

variable {V φ : Type} (room : Reader φ UInt8 → ℕ) {reader : Reader φ UInt8}

lemma readWhole_eq (limit : Option ℕ) (decode : List UInt8 → Outcome Error V) :
    readWhole limit decode = fetch (saturatingAdd (limit.getD u64Max) 1) fun bytes =>
      done (require (bytes.length ≤ limit.getD u64Max) (.wire (.sizeLimit (limit.getD u64Max)))
        >>= fun _ => (decode bytes).mapErr .wire) :=
  congrArg (fetch _) (funext fun _ => done_bind_done _ _)

lemma asks_readWhole {limit : Option ℕ} {decode : List UInt8 → Outcome Error V}
    {stream : List UInt8} : (readWhole limit decode).Asks stream ↔
      stream.length < saturatingAdd (limit.getD u64Max) 1 := by
  rw [readWhole_eq]
  exact or_iff_left id

/-- A stream is decoded when it is within the limit and its end is found behind it. -/
lemma readWhole_onReader (limit : Option ℕ) (decode : List UInt8 → Outcome Error V)
    (hsize : reader.contents.length ≤ isizeMax) :
    ((readWhole limit decode).onReader room reader).1 =
      wholeAnswer limit reader.fault decode reader.contents := by
  have hword : isizeMax < u64Max := by decide
  have hcap : saturatingAdd (limit.getD u64Max) 1 = min (limit.getD u64Max + 1) u64Max := rfl
  unfold wholeAnswer
  split
  · next hlt =>
      -- the byte beyond the limit is there, so that the end is not looked for
      have hstays : ¬ (readWhole limit decode).Asks reader.contents := by
        rw [asks_readWhole]
        omega
      obtain ⟨rest, hrun, -⟩ := onReader_of_stays room _ reader (.inl hstays)
      rw [hrun, readWhole_eq, onStream, onStream, require,
        if_neg (by rw [List.length_take]; omega)]
      rfl
  · next hle =>
      have hshort : reader.contents.length < saturatingAdd (limit.getD u64Max) 1 := by omega
      rcases hfault : reader.fault with _ | fault
      · obtain ⟨rest, hrun, -⟩ := onReader_of_stays room (readWhole limit decode) reader
          (.inr hfault)
        rw [hrun, readWhole_eq, onStream, onStream, List.take_of_length_le (by omega),
          require_of (by omega), ok_bind]
        cases decode reader.contents <;> rfl
      · exact onReader_of_asks room _ reader (asks_readWhole.mpr hshort) hfault

/-- The check of a header does not look behind it. -/
lemma validateHeader_take {magic input : List UInt8} (h : Schema.headerLen ≤ input.length)
    (expected : ℕ) : Schema.validateHeader magic (input.take Schema.headerLen) expected =
      Schema.validateHeader magic input expected >>= fun _ => .ok [] := by
  have hlen : (input.take Schema.headerLen).length = Schema.headerLen := List.length_take_of_le h
  have hslice : slice input 0 Schema.headerLen = some (input.take Schema.headerLen) :=
    slice_eq_some.mpr ⟨Nat.zero_le _, h, rfl⟩
  have hself : slice (input.take Schema.headerLen) 0 Schema.headerLen =
      some (input.take Schema.headerLen) :=
    slice_eq_some.mpr ⟨Nat.zero_le _, hlen.ge, by
      rw [List.drop_zero, Nat.sub_zero, List.take_take, Nat.min_self]⟩
  rw [Schema.validateHeader, Schema.validateHeader, hslice, hself,
    List.drop_of_length_le hlen.le]
  simp only [okOr_some, ok_bind, require]
  split_ifs <;> rfl

lemma drop_of_validateHeader {magic input payload : List UInt8} {expected : ℕ}
    (h : Schema.validateHeader magic input expected = .ok payload) :
    payload = input.drop Schema.headerLen := by
  rw [Schema.validateHeader] at h
  obtain ⟨_, -, h⟩ := bind_eq_ok.mp h
  obtain ⟨_, -, h⟩ := bind_eq_ok.mp h
  obtain ⟨_, -, h⟩ := bind_eq_ok.mp h
  obtain ⟨_, -, h⟩ := bind_eq_ok.mp h
  obtain ⟨_, -, h⟩ := bind_eq_ok.mp h
  exact (Outcome.ok.inj h).symm

/-- A stream with a header is decoded behind it when the header is the expected one. -/
lemma readBehindHeader_onReader (magic : List UInt8) (expected : ℕ) (limit : Option ℕ)
    (decode : List UInt8 → Outcome Error V) (hsize : reader.contents.length ≤ isizeMax) :
    (reader.contents.length < Schema.headerLen → BrokenOff reader.fault
      ((readBehindHeader magic expected (readWhole limit decode)).onReader room reader).1) ∧
    (Schema.headerLen ≤ reader.contents.length →
      ((readBehindHeader magic expected (readWhole limit decode)).onReader room reader).1 =
        (Schema.validateHeader magic reader.contents expected).mapErr (fun e => .error (.wire e))
          >>= wholeAnswer limit reader.fault decode) := by
  constructor
  · intro hshort
    rcases hfault : reader.fault with _ | fault
    · obtain ⟨rest, hrun, -⟩ := onReader_of_stays room
        (readBehindHeader magic expected (readWhole limit decode)) reader (.inr hfault)
      refine ⟨.unexpectedEof, ?_⟩
      rw [hrun, readBehindHeader, onStream_bind, Act.bind_of_err (by
        rw [onStream_readExact, if_neg (Nat.not_le.mpr hshort)])]
      rfl
    · exact onReader_of_asks room _ reader (asks_readExact_bind hshort) hfault
  · intro hlong
    have hread : ∃ rest,
        (readBehindHeader magic expected (readWhole limit decode)).onReader room reader =
          (do
            let _ ← done ((Schema.validateHeader magic (reader.contents.take Schema.headerLen)
              expected).mapErr .wire)
            readWhole limit decode : Reading UInt8 Compression.Error V).onReader room rest ∧
        rest.contents = reader.contents.drop Schema.headerLen ∧ rest.fault = reader.fault :=
      onReader_readExact_bind room hlong
    obtain ⟨rest, hrun, hcontents, hfault⟩ := hread
    rw [hrun, validateHeader_take hlong]
    cases hvalid : Schema.validateHeader magic reader.contents expected with
    | ok payload =>
        have hrest : ((readWhole limit decode).onReader room rest).1 =
            wholeAnswer limit rest.fault decode rest.contents :=
          readWhole_onReader room limit decode (by
            rw [hcontents, List.length_drop]
            exact (Nat.sub_le _ _).trans hsize)
        rw [hfault, hcontents, ← drop_of_validateHeader hvalid] at hrest
        exact hrest
    | err e => rfl
    | panic => rfl
    | diverge => rfl

end Whole

/-- **Streams as slices.**  Whatever pieces a reader hands out and whatever the buffers, the three
plain profiles read the stream to its end, or to the byte beyond their limit, and do on it what they
do on a slice: within the limit a stream that ends is deserialized, and one that breaks off is
answered with the failure, however much of it is there.  Beyond the limit the CBOR profile still
does what it does on a slice, whose length it checks; and a fingerprinted profile answers a wrong
header with its error, whatever is behind it. -/
theorem streams_read {φ V : Type} (room : Reader φ UInt8 → ℕ) (reader : Reader φ UInt8)
    (hsize : reader.contents.length ≤ isizeMax) (fromNextjson : NextjsonError → Error) :
    (∀ (nextdecode : Native.Dec V) (config : Config),
      ((Native.deserializeFrom fromNextjson nextdecode config).onReader room reader).1 =
        wholeAnswer config.limit reader.fault (Native.deserialize fromNextjson nextdecode config)
          reader.contents) ∧
    (∀ (nextdecode : Cbor.Dec V) (c : Cbor.CborConfig),
      ((c.deserializeFrom fromNextjson nextdecode).onReader room reader).1 =
          wholeAnswer c.base.limit reader.fault (c.deserialize fromNextjson nextdecode)
            reader.contents ∧
        (reader.fault = none →
          ((c.deserializeFrom fromNextjson nextdecode).onReader room reader).1 =
            (c.deserialize fromNextjson nextdecode reader.contents).mapErr
              fun e => .error (.wire e))) ∧
    ∀ [Target] (nextdecode : Native.Dec V) (c : Schema.FingerprintedConfig) (typeFingerprint : ℕ),
      (reader.contents.length < Schema.headerLen → BrokenOff reader.fault
        ((c.deserializeFrom fromNextjson typeFingerprint nextdecode).onReader room reader).1) ∧
      (Schema.headerLen ≤ reader.contents.length →
        ((c.deserializeFrom fromNextjson typeFingerprint nextdecode).onReader room reader).1 =
          (Schema.validateHeader Schema.frameMagic reader.contents
              (c.fingerprint typeFingerprint)).mapErr (fun e => .error (.wire e)) >>=
            wholeAnswer c.config.limit reader.fault
              (Native.deserialize fromNextjson nextdecode c.config)) := by
  refine ⟨fun nextdecode config => readWhole_onReader room _ _ hsize, fun nextdecode c =>
    ⟨readWhole_onReader room _ _ hsize, fun hfault => ?_⟩, fun nextdecode c typeFingerprint =>
      readBehindHeader_onReader room _ _ _ _ hsize⟩
  rw [Cbor.CborConfig.deserializeFrom, readWhole_onReader room _ _ hsize]
  unfold wholeAnswer
  rw [hfault]
  split
  · next hlt =>
      have hword : isizeMax ≤ u64Max := by decide
      cases hlimit : c.base.limit with
      | none =>
          rw [hlimit, Option.getD_none] at hlt
          omega
      | some limit =>
          rw [hlimit, Option.getD_some] at hlt
          rw [Cbor.CborConfig.deserialize, Config.enforceByteLimit, hlimit]
          dsimp only
          rw [if_pos hlt]
          rfl
  · rfl

section Case

local instance readersTarget : Target := ⟨true⟩

def plain : Schema.FingerprintedConfig := ⟨.standard⟩

/-- `hi` in two formats, and in one of them behind a header. -/
theorem streams_read_text :
    ((Native.deserializeFrom (fun _ => .unexpectedEnd) Native.Decoder.string .standard).onReader
        (fun _ => 0) ([.elems 9 [2], .interrupted, .elems 104 [105]] : Reader String UInt8)).1
        = .ok "hi" ∧
      ((Cbor.CborConfig.mk .standard false).deserializeFrom (fun _ => .unexpectedEnd)
        Cbor.CborDecoder.string |>.onReader (fun _ => 0)
          ([.elems 0x62 [104, 105], .failed "connection reset"] : Reader String UInt8)).1
        = .err (.io "connection reset") ∧
      ((plain.deserializeFrom (fun _ => .unexpectedEnd) 7 Native.Decoder.string).onReader
        (fun _ => 3) ([.elems 0x52 ((plain.header 7).drop 1 ++ [9]), .elems 2 [104, 105]] :
          Reader String UInt8)).1 = .ok "hi" := by
  refine ⟨((streams_read (fun _ => 0) _ (by decide) (fun _ => .unexpectedEnd)).1
      Native.Decoder.string .standard).trans (by decide +kernel),
    (((streams_read (fun _ => 0) _ (by decide) (fun _ => .unexpectedEnd)).2.1
      Cbor.CborDecoder.string ⟨.standard, false⟩).1).trans (by decide +kernel),
    (((streams_read (fun _ => 3) _ (by decide +kernel) (fun _ => .unexpectedEnd)).2.2
      Native.Decoder.string plain 7).2 (by decide +kernel)).trans (by decide +kernel)⟩

end Case

/-! ## Compressed frames -/

namespace Compression.CompressedConfig

variable {T : Type}

/-- `deserialize_from`, of any reader. -/
def deserializeFromReader (c : CompressedConfig T) : Reading UInt8 Error T := do
  let header ← Reading.readExact headerLen Error.unexpectedEof
  let (_, rawLen, storedLen) ← done (parseHeader header)
  done (c.enforceRawLimit rawLen)
  done (require (storedLen ≤ u64Max) (.wire (.integerOverflow "usize")))
  let frameLen ← done (okOr (checkedAdd headerLen storedLen)
    (.wire (.invalidFrame "compression frame size overflow")))
  -- `try_reserve_exact`
  done (require (frameLen ≤ isizeMax) (.wire (.sizeLimit u64Max)))
  let stored ← Reading.readToEnd storedLen
  let frame := header ++ stored
  done (require (frame.length = headerLen + storedLen) (.wire .unexpectedEnd))
  done (c.deserialize frame)

variable {c : CompressedConfig T}

lemma onStream_deserializeFromReader : c.deserializeFromReader.onStream = c.deserializeFrom :=
  onStream_bind_of (funext (onStream_readExact headerLen Error.unexpectedEof)) fun _ =>
    onStream_bind_of rfl fun ⟨_, _, _⟩ => onStream_bind_of rfl fun _ =>
      onStream_bind_of rfl fun _ => onStream_bind_of rfl fun _ => onStream_bind_of rfl fun _ =>
        onStream_bind_of rfl fun _ => onStream_bind_of rfl fun _ => rfl

lemma strict_deserializeFromReader : c.deserializeFromReader.Strict := by
  refine strict_readExact_bind fun header hheader => strict_done_bind fun ⟨_, _, storedLen⟩ =>
    strict_done_bind fun _ => strict_done_bind fun _ => strict_done_bind fun _ =>
      strict_done_bind fun _ => strict_readToEnd_bind
        (fun stored hshort => ⟨.wire .unexpectedEnd, ?_⟩)
        fun stored => strict_done_bind fun _ => strict_done _
  change done (require _ _) >>= (fun _ => done (c.deserialize (header ++ stored))) = _
  rw [require, if_neg (by rw [List.length_append, hheader]; omega)]
  rfl

/-- What is stored for a payload is read off any stream. -/
lemma deserializeFromReader_delimits {value : T} {raw stored : List UInt8} {flags : ℕ}
    (hvalue : c.payload.serialize value = .ok raw) (h : Stores raw flags stored)
    (hlimit : raw.length ≤ c.payload.base.limit.getD defaultSizeLimit)
    (hraw : raw.length < 2 ^ 32) :
    c.deserializeFromReader.Delimits (headerBytes flags raw.length stored.length ++ stored)
      (.ok value) := by
  intro rest
  have hle := h.length_le
  obtain ⟨hflags, hlengths⟩ := h.checkLengths
  have hmachine : headerLen = 24 ∧ isizeMax = 2 ^ 63 - 1 ∧ u64Max = 2 ^ 64 - 1 := ⟨rfl, rfl, rfl⟩
  have hheader : (headerBytes flags raw.length stored.length).length = headerLen :=
    length_headerBytes _ _ _
  have hread : readExact headerLen (headerBytes flags raw.length stored.length ++ stored ++ rest) =
      (.ok (headerBytes flags raw.length stored.length), stored ++ rest) := by
    rw [readExact, if_pos (by simp only [List.length_append, hheader]; omega), List.append_assoc,
      List.take_left' hheader, List.drop_left' hheader]
  have hparse : parseHeader (headerBytes flags raw.length stored.length) =
      .ok (flags, raw.length, stored.length) :=
    parseHeader_eq_ok.mpr (header_headerBytes hflags (by omega) (by omega) hlengths)
  have hadd : checkedAdd headerLen stored.length = some (headerLen + stored.length) :=
    if_pos (by omega)
  have hend : readToEnd stored.length (stored ++ rest) = (.ok stored, rest) := by
    rw [readToEnd, List.take_left, List.drop_left]
  have hwhole : (headerBytes flags raw.length stored.length ++ stored).length =
      headerLen + stored.length := by
    rw [List.length_append, hheader]
  rw [onStream_deserializeFromReader, deserializeFrom, Act.bind_of_ok hread, hparse,
    Act.bind_of_ok (Act.call_run _ _)]
  dsimp only
  rw [enforceRawLimit, require_of hlimit, Act.bind_of_ok (Act.call_run _ _),
    require_of (by omega), Act.bind_of_ok (Act.call_run _ _), hadd, okOr_some,
    Act.bind_of_ok (Act.call_run _ _), require_of (by omega), Act.bind_of_ok (Act.call_run _ _),
    Act.bind_of_ok hend, require_of hwhole, Act.bind_of_ok (Act.call_run _ _), Act.call_run,
    deserialize_headerBytes hvalue h hlimit hraw]

/-- What is written is what is stored for a payload. -/
lemma delimits_of_serialize {value : T} {frame : List UInt8}
    (hserialize : c.serialize value = .ok frame)
    (hwithin : (Encryption.PayloadFormat.compressed c).WithinLimits value) :
    c.deserializeFromReader.Delimits frame (.ok value) := by
  obtain ⟨raw, hvalue, -⟩ := bind_eq_ok.mp hserialize
  have hvalue := mapErr_eq_ok.mp hvalue
  obtain ⟨hlimit, hraw⟩ := hwithin raw hvalue
  obtain ⟨flags, stored, hstores, hframe⟩ := serialize_eq hvalue hraw
  obtain rfl := Outcome.ok.inj (hserialize.symm.trans hframe)
  exact deserializeFromReader_delimits hvalue hstores hlimit hraw

end Compression.CompressedConfig

/-! ## Encrypted frames -/

namespace Encryption.EncryptedConfig

open Aead Compression

variable {T : Type}

/-- `deserialize_from`, of any reader. -/
def deserializeFromReader (c : EncryptedConfig T) : Reading UInt8 Error T := do
  let header ← Reading.readExact headerLen (.payload .unexpectedEof)
  let (_, plaintextLen, ciphertextLen) ← done (parseHeader header)
  done (c.enforcePlaintextLimit plaintextLen)
  done (require (ciphertextLen ≤ u64Max) (wireError (.integerOverflow "usize")))
  let frameLen ← done (okOr (checkedAdd headerLen ciphertextLen)
    (wireError (.invalidFrame "encryption frame size overflow")))
  -- `try_reserve_exact`
  done (require (frameLen ≤ isizeMax) (wireError (.sizeLimit u64Max)))
  let stored ← Reading.readToEnd ciphertextLen
  let frame := header ++ stored
  done (require (frame.length = headerLen + ciphertextLen) (wireError .unexpectedEnd))
  done (c.deserialize frame)

variable {c : EncryptedConfig T}

lemma onStream_deserializeFromReader : c.deserializeFromReader.onStream = c.deserializeFrom :=
  onStream_bind_of (funext (onStream_readExact headerLen (Error.payload .unexpectedEof))) fun _ =>
    onStream_bind_of rfl fun ⟨_, _, _⟩ => onStream_bind_of rfl fun _ =>
      onStream_bind_of rfl fun _ => onStream_bind_of rfl fun _ => onStream_bind_of rfl fun _ =>
        onStream_bind_of rfl fun _ => onStream_bind_of rfl fun _ => rfl

lemma strict_deserializeFromReader : c.deserializeFromReader.Strict := by
  refine strict_readExact_bind fun header hheader => strict_done_bind fun ⟨_, _, storedLen⟩ =>
    strict_done_bind fun _ => strict_done_bind fun _ => strict_done_bind fun _ =>
      strict_done_bind fun _ => strict_readToEnd_bind
        (fun stored hshort => ⟨wireError .unexpectedEnd, ?_⟩)
        fun stored => strict_done_bind fun _ => strict_done _
  change done (require _ _) >>= (fun _ => done (c.deserialize (header ++ stored))) = _
  rw [require, if_neg (by rw [List.length_append, hheader]; omega)]
  rfl

/-- What is written is read off any stream. -/
lemma delimits_of_serialize {nonce : XNonce} {value : T} {frame : List UInt8}
    (hserialize : c.serialize (.ok nonce) value = .ok frame)
    (hwithin : c.payload.WithinLimits value) :
    c.deserializeFromReader.Delimits frame (.ok value) := by
  obtain ⟨_, plaintext, ciphertext, -, -, hsealed, hsize, rfl⟩ := sealed_of_serialize hserialize
  intro rest
  rw [onStream_deserializeFromReader, List.append_assoc, deserializeFrom_append hsealed hsize,
    deserialize_of_serialize hserialize hwithin]

end Encryption.EncryptedConfig

section Case

open Encryption

def packed : Compression.CompressedConfig (List UInt8) := ⟨sampleFormat, 1, 0⟩

/-- `ab`, as it is. -/
def packedFrame : List UInt8 :=
  [0x52, 0x42, 0x5a, 0x31, 1, 0, 0, 0, 2, 0, 0, 0, 0, 0, 0, 0, 2, 0, 0, 0, 0, 0, 0, 0, 0x61, 0x62]

/-- A frame and a part of another one, three pieces. -/
def packedReader : Reader String UInt8 :=
  [.elems 0x52 [0x42, 0x5a], .interrupted, .elems 0x31 (packedFrame.drop 4), .elems 0x52 [0x42]]

/-- A frame and a part of another one; then the connection is reset. -/
def sealedReader : Reader String UInt8 :=
  [.elems 0x52 (sampleFrame.elems.drop 1 ++ sampleFrame.elems.take 50), .interrupted,
    .failed "connection reset", .elems 0 []]

end Case

/-! ## Sessions -/

namespace Trust.Session

variable {T V : Type}

/-- `recv`, of any reader. -/
def recvFromReader (session : Session T V .authenticated) (type : T) : Reading UInt8 Error V := do
  let lengthBytes ← Reading.readExact 8 (Error.codec (.payload .unexpectedEof))
  let length := leNat lengthBytes
  done (require (length ≤ u64Max) (.trust "session frame length does not fit usize"))
  done (match session.maxFrameLen with
    | some limit => if limit < length then .err (wireError (.sizeLimit limit)) else .ok ()
    | none => .ok ())
  -- `vec![0_u8; length]`
  done ((withCapacity 1 length).mapErr wireError)
  let frame ← Reading.readExact length (Error.codec (.payload .unexpectedEof))
  let verifier ← done (okOr session.verifier (.trust "authenticated session lost its verifier"))
  done (verifier.check frame)
  done (session.codec.deserializeFrame type frame)

variable {session : Session T V .authenticated} {type : T}

lemma onStream_recvFromReader : (session.recvFromReader type).onStream = session.recv type := by
  refine onStream_bind_of (funext (onStream_readExact 8 _)) fun lengthBytes =>
    onStream_bind_of rfl fun _ => onStream_bind_of ?_ fun _ => onStream_bind_of rfl fun _ =>
      onStream_bind_of (funext (onStream_readExact _ _)) fun _ => onStream_bind_of ?_ fun _ =>
        onStream_bind_of rfl fun _ => rfl
  · cases session.maxFrameLen with
    | none => rfl
    | some limit =>
        dsimp only [Act.atMost]
        split <;> rfl
  · cases session.verifier <;> rfl

lemma strict_recvFromReader : (session.recvFromReader type).Strict :=
  strict_readExact_bind fun _ _ => strict_done_bind fun _ => strict_done_bind fun _ =>
    strict_done_bind fun _ => strict_readExact_bind fun _ _ => strict_done_bind fun _ =>
      strict_done_bind fun _ => strict_done _

end Trust.Session

section Case

open Trust

/-- A frame with a string, and four bytes of a length. -/
def textReader : Reader String UInt8 :=
  [.elems 4 [0, 0, 0, 0], .elems 0 [0, 0, 9, 2, 104], .interrupted, .elems 105 [3, 0, 0, 0],
    .failed "connection reset"]

end Case

end RustBinary
