import RustBinary.Compression.Pipeline
import RustBinary.Encryption.Frame

/-!
# Accepted frames

A header is determined by the nonce and the length of the payload, and what is opened is what was
sealed.  So a frame that is accepted is a header and the payload sealed under it
(`deserialize_eq_ok`); such a frame is what is written, and a reader takes it and no more.
-/

namespace RustBinary.Encryption

open Lib Lib.Outcome Aead Compression

/-! ## Headers -/

/-- The bytes of a header. -/
def headerBytes (nonce : XNonce) (plaintextLen ciphertextLen : ℕ) : List UInt8 :=
  magic ++ (leBytes 2 version ++ (leBytes 2 algorithmXchacha20Poly1305 ++
    (nonce.toList ++ (leBytes 8 plaintextLen ++ leBytes 8 ciphertextLen))))

lemma header_eq_ok {nonce : XNonce} {plaintextLen ciphertextLen : ℕ}
    (hplain : plaintextLen ≤ u64Max) (hcipher : ciphertextLen ≤ u64Max) :
    header nonce plaintextLen ciphertextLen = .ok (headerBytes nonce plaintextLen ciphertextLen) := by
  rw [header, require_of hplain, ok_bind, require_of hcipher, ok_bind]
  rfl

lemma length_headerBytes (nonce : XNonce) (plaintextLen ciphertextLen : ℕ) :
    (headerBytes nonce plaintextLen ciphertextLen).length = headerLen := by
  simp only [headerBytes, List.length_append, length_leBytes, Vector.length_toList, headerLen]
  rfl

/-- The fields of a header. -/
lemma headerBytes_fields (nonce : XNonce) (plaintextLen ciphertextLen : ℕ) :
    ((headerBytes nonce plaintextLen ciphertextLen).drop 8).take nonceLen = nonce.toList ∧
      ((headerBytes nonce plaintextLen ciphertextLen).drop 32).take 8 = leBytes 8 plaintextLen ∧
      ((headerBytes nonce plaintextLen ciphertextLen).drop 40).take 8 =
        leBytes 8 ciphertextLen := by
  have hnonce : nonce.toList.length = 24 := Vector.length_toList
  have hdrop : (headerBytes nonce plaintextLen ciphertextLen).drop 8 =
      nonce.toList ++ (leBytes 8 plaintextLen ++ leBytes 8 ciphertextLen) := rfl
  have hdrop32 : (headerBytes nonce plaintextLen ciphertextLen).drop 32 =
      leBytes 8 plaintextLen ++ leBytes 8 ciphertextLen := by
    rw [show 32 = 8 + 24 from rfl, ← List.drop_drop, hdrop, List.drop_left' hnonce]
  refine ⟨?_, ?_, ?_⟩
  · rw [hdrop, nonceLen, List.take_left' hnonce]
  · rw [hdrop32, List.take_left' (length_leBytes _ _)]
  · rw [show 40 = 32 + 8 from rfl, ← List.drop_drop, hdrop32,
      List.drop_left' (length_leBytes _ _), List.take_of_length_le (length_leBytes _ _).le]

/-- Forty-eight bytes as the fields of a header. -/
lemma header_split {header : List UInt8} (hlen : header.length = headerLen) :
    header = header.take 4 ++ ((header.drop 4).take 2 ++ ((header.drop 6).take 2 ++
      ((header.drop 8).take nonceLen ++ ((header.drop 32).take 8 ++
        (header.drop 40).take 8)))) := by
  have hnext : ∀ m n, header.drop m = (header.drop m).take n ++ header.drop (m + n) := by
    intro m n
    rw [← List.drop_drop, List.take_append_drop]
  have hlast : (header.drop 40).take 8 = header.drop 40 := by
    rw [headerLen] at hlen
    exact List.take_of_length_le (by rw [List.length_drop, hlen])
  rw [hlast, nonceLen, ← hnext 32 8, ← hnext 8 24, ← hnext 6 2, ← hnext 4 2, List.take_append_drop]

/-- A header that is accepted is the header of its nonce and its lengths. -/
lemma parseHeader_eq_ok {header : List UInt8} {nonce : XNonce} {plaintextLen ciphertextLen : ℕ} :
    parseHeader header = .ok (nonce, plaintextLen, ciphertextLen) ↔
      header = headerBytes nonce plaintextLen ciphertextLen ∧
        ciphertextLen = plaintextLen + tagLen ∧ ciphertextLen ≤ u64Max := by
  rw [parseHeader]
  simp only [bind_eq_ok, require_eq_ok, exists_const, Outcome.ok.injEq, Prod.mk.injEq]
  constructor
  · rintro ⟨⟨hlen, hmagic⟩, hversion, halgorithm, hadd, rfl, rfl, rfl⟩
    have hsum : leNat ((header.drop 40).take 8) = leNat ((header.drop 32).take 8) + tagLen ∧
        leNat ((header.drop 40).take 8) ≤ u64Max := by
      rw [checkedAdd] at hadd
      split at hadd
      · next hle =>
          rw [← Option.some.inj hadd]
          exact ⟨rfl, hle⟩
      · cases hadd
    refine ⟨?_, hsum⟩
    have hfield : ∀ m n, m + n ≤ headerLen →
        leBytes n (leNat ((header.drop m).take n)) = (header.drop m).take n := by
      intro m n hle
      have hn : ((header.drop m).take n).length = n := by
        rw [List.length_take, List.length_drop, hlen]
        omega
      have hback := leBytes_leNat ((header.drop m).take n)
      rwa [hn] at hback
    have hnonce : ((header.drop 8).take nonceLen).length = 24 := by
      rw [List.length_take, List.length_drop, hlen]
      rfl
    rw [headerBytes, ← hmagic, ← hversion, ← halgorithm, hfield 4 2 (by decide),
      hfield 6 2 (by decide), hfield 32 8 (by decide), hfield 40 8 (by decide),
      toList_arrayOf hnonce]
    exact header_split hlen
  · rintro ⟨rfl, rfl, hmax⟩
    obtain ⟨hnonce, hplain, hcipher⟩ := headerBytes_fields nonce plaintextLen (plaintextLen + tagLen)
    have hword : u64Max < 256 ^ 8 := by decide
    rw [hnonce, hplain, hcipher, leNat_leBytes (by omega), leNat_leBytes (by omega)]
    exact ⟨⟨length_headerBytes _ _ _, rfl⟩, rfl, rfl, if_pos hmax, arrayOf_toList nonce, rfl, rfl⟩

/-! ## Frames -/

lemma slice_headerBytes (nonce : XNonce) (plaintextLen ciphertextLen : ℕ) (rest : List UInt8) :
    slice (headerBytes nonce plaintextLen ciphertextLen ++ rest) 0 headerLen =
      some (headerBytes nonce plaintextLen ciphertextLen) := by
  have hslice := slice_append [] (headerBytes nonce plaintextLen ciphertextLen) rest
  rwa [List.length_nil, Nat.zero_add, length_headerBytes] at hslice

/-- A frame that is accepted is a header, as many bytes as it declares, and a tail. -/
lemma parseFrame_eq_ok {input ciphertext : List UInt8} {trailing : TrailingBytes} {nonce : XNonce}
    {plaintextLen : ℕ} :
    parseFrame input trailing = .ok (nonce, plaintextLen, ciphertext) ↔
      ciphertext.length = plaintextLen + tagLen ∧ headerLen + ciphertext.length ≤ u64Max ∧
      ∃ tail, input = headerBytes nonce plaintextLen ciphertext.length ++ (ciphertext ++ tail) ∧
        (trailing = .reject → tail = []) := by
  constructor
  · intro h
    obtain ⟨header, hheader, h⟩ := bind_eq_ok.mp h
    obtain ⟨⟨nonce, plaintextLen, ciphertextLen⟩, hparse, h⟩ := bind_eq_ok.mp h
    obtain ⟨_, -, h⟩ := bind_eq_ok.mp h
    obtain ⟨stop, hstop, h⟩ := bind_eq_ok.mp h
    obtain ⟨ciphertext, hciphertext, h⟩ := bind_eq_ok.mp h
    obtain ⟨_, htrailing, h⟩ := bind_eq_ok.mp h
    cases h
    obtain ⟨rfl, hsum, -⟩ := parseHeader_eq_ok.mp hparse
    have hle : headerLen + ciphertextLen ≤ u64Max := by
      by_contra hgt
      rw [checkedAdd, if_neg hgt] at hstop
      cases hstop
    obtain rfl : stop = headerLen + ciphertextLen := checkedAdd_eq_some (okOr_eq_ok.mp hstop)
    obtain ⟨-, -, htake⟩ := slice_eq_some.mp (okOr_eq_ok.mp hheader)
    have hciphertext := okOr_eq_ok.mp hciphertext
    have hlen := slice_length hciphertext
    obtain ⟨-, hinput, hdrop⟩ := slice_eq_some.mp hciphertext
    rw [Nat.add_sub_cancel_left] at hlen hdrop
    rw [List.drop_zero, Nat.sub_zero] at htake
    rw [hlen]
    refine ⟨hsum, hle, input.drop (headerLen + ciphertextLen), ?_, fun hreject => ?_⟩
    · rw [← List.drop_drop, ← htake]
      conv_rhs => rw [← hdrop, List.take_append_drop, List.take_append_drop]
    · exact List.drop_of_length_le (require_eq_ok.mp htrailing hreject).ge
  · rintro ⟨hlen, hle, tail, rfl, htail⟩
    have hheader := length_headerBytes nonce plaintextLen ciphertext.length
    have hsecond := slice_append (headerBytes nonce plaintextLen ciphertext.length) ciphertext tail
    rw [hheader] at hsecond
    have hparse : parseHeader (headerBytes nonce plaintextLen ciphertext.length) =
        .ok (nonce, plaintextLen, ciphertext.length) :=
      parseHeader_eq_ok.mpr ⟨rfl, hlen, (Nat.le_add_left _ _).trans hle⟩
    have hend : trailing = .reject → headerLen + ciphertext.length =
        (headerBytes nonce plaintextLen ciphertext.length ++ (ciphertext ++ tail)).length := by
      intro hreject
      rw [htail hreject, List.append_nil, List.length_append, hheader]
    rw [parseFrame, slice_headerBytes, okOr_some, ok_bind, hparse, ok_bind]
    dsimp only
    rw [require_of ((Nat.le_add_left _ _).trans hle), ok_bind, checkedAdd, if_pos hle, okOr_some,
      ok_bind, hsecond, okOr_some, ok_bind, require_of hend, ok_bind]

/-! ## Payloads -/

namespace PayloadFormat

variable {T : Type}

/-- The value keeps the limits of a compressed frame, whose lengths are 32 bits wide; the other
formats read back whatever they write. -/
def WithinLimits : PayloadFormat T → T → Prop
  | binary _, _ => True
  | cbor _, _ => True
  | compressed config, value => ∀ raw, config.payload.serialize value = .ok raw →
      raw.length ≤ config.payload.base.limit.getD defaultSizeLimit ∧ raw.length < 2 ^ 32

lemma deserializePayload_serializePayload {format : PayloadFormat T} {value : T}
    {payload : List UInt8} (h : format.serializePayload value = .ok payload)
    (hwithin : format.WithinLimits value) : format.deserializePayload payload = .ok value := by
  cases format with
  | binary config =>
      exact mapErr_eq_ok.mpr (config.deserialize_serialize _ _ (mapErr_eq_ok.mp h))
  | cbor config =>
      exact mapErr_eq_ok.mpr (config.deserialize_serialize _ _ (mapErr_eq_ok.mp h))
  | compressed config =>
      have h := mapErr_eq_ok.mp h
      obtain ⟨raw, hraw, -⟩ := bind_eq_ok.mp h
      have hraw := mapErr_eq_ok.mp hraw
      obtain ⟨hlimit, hword⟩ := hwithin raw hraw
      obtain ⟨flags, stored, hstores, hserialize⟩ := CompressedConfig.serialize_eq hraw hword
      rw [hserialize] at h
      obtain rfl := Outcome.ok.inj h
      exact mapErr_eq_ok.mpr (CompressedConfig.deserialize_headerBytes hraw hstores hlimit hword)

end PayloadFormat

namespace EncryptedConfig

variable {T : Type} {c : EncryptedConfig T}

lemma enforcePlaintextLimit_eq_ok {length : ℕ} {u : Unit} :
    c.enforcePlaintextLimit length = .ok u ↔
      ∀ limit, c.plaintextLimit = some limit → length ≤ limit :=
  limit_eq_ok

lemma enforcePlaintextLimit_of {length : ℕ}
    (h : ∀ limit, c.plaintextLimit = some limit → length ≤ limit) :
    c.enforcePlaintextLimit length = .ok () := enforcePlaintextLimit_eq_ok.mpr h

/-- The header of a payload. -/
def headerOf (nonce : XNonce) (plaintext : List UInt8) : List UInt8 :=
  headerBytes nonce plaintext.length (plaintext.length + tagLen)

/-- What a header is followed by in a frame that keeps the limits. -/
structure Sealed (c : EncryptedConfig T) (nonce : XNonce) (plaintext ciphertext : List UInt8) :
    Prop where
  opens : decrypt c.key nonce (headerOf nonce plaintext) ciphertext = .ok plaintext
  size_le : headerLen + ciphertext.length ≤ u64Max
  limit_le : ∀ limit, c.plaintextLimit = some limit → plaintext.length ≤ limit

lemma Sealed.length_eq {nonce : XNonce} {plaintext ciphertext : List UInt8}
    (h : c.Sealed nonce plaintext ciphertext) :
    ciphertext.length = plaintext.length + tagLen := length_of_decrypt h.opens

/-- A frame that is accepted is a header and what it seals. -/
lemma deserialize_eq_ok {input : List UInt8} {value : T} :
    c.deserialize input = .ok value ↔ ∃ nonce plaintext ciphertext tail,
      c.Sealed nonce plaintext ciphertext ∧
      input = headerOf nonce plaintext ++ (ciphertext ++ tail) ∧
      (c.payload.trailingPolicy = .reject → tail = []) ∧
      c.payload.deserializePayload plaintext = .ok value := by
  constructor
  · intro h
    obtain ⟨header, hheader, h⟩ := bind_eq_ok.mp h
    obtain ⟨⟨nonce, plaintextLen, ciphertextLen⟩, hparse, h⟩ := bind_eq_ok.mp h
    obtain ⟨_, hlimit, h⟩ := bind_eq_ok.mp h
    obtain ⟨⟨nonce', plaintextLen', ciphertext⟩, hframe, h⟩ := bind_eq_ok.mp h
    obtain ⟨plaintext, hopen, h⟩ := bind_eq_ok.mp h
    obtain ⟨_, hlen, hpayload⟩ := bind_eq_ok.mp h
    obtain ⟨hsize, hle, tail, rfl, htail⟩ := parseFrame_eq_ok.mp hframe
    rw [slice_headerBytes] at hheader
    obtain rfl := Option.some.inj (okOr_eq_ok.mp hheader)
    -- both times the header is read alike
    rw [parseHeader_eq_ok.mpr ⟨rfl, hsize, (Nat.le_add_left _ _).trans hle⟩] at hparse
    cases hparse
    obtain rfl := require_eq_ok.mp hlen
    rw [hsize] at hopen ⊢
    exact ⟨nonce, plaintext, ciphertext, tail,
      ⟨mapErr_eq_ok.mp hopen, hle, enforcePlaintextLimit_eq_ok.mp hlimit⟩, rfl, htail, hpayload⟩
  · rintro ⟨nonce, plaintext, ciphertext, tail, h, rfl, htail, hpayload⟩
    have hlen := h.length_eq
    have hopen : (decrypt c.key nonce (headerOf nonce plaintext) ciphertext).mapErr
        (fun _ => Error.encryption) = .ok plaintext := mapErr_eq_ok.mpr h.opens
    have hparse : parseHeader (headerOf nonce plaintext) =
        .ok (nonce, plaintext.length, plaintext.length + tagLen) :=
      parseHeader_eq_ok.mpr ⟨rfl, rfl, hlen ▸ (Nat.le_add_left _ _).trans h.size_le⟩
    have hframe : parseFrame (headerOf nonce plaintext ++ (ciphertext ++ tail))
        c.payload.trailingPolicy = .ok (nonce, plaintext.length, ciphertext) :=
      parseFrame_eq_ok.mpr ⟨hlen, h.size_le, tail, by rw [hlen]; rfl, htail⟩
    have hslice : slice (headerOf nonce plaintext ++ (ciphertext ++ tail)) 0 headerLen =
        some (headerOf nonce plaintext) := slice_headerBytes _ _ _ _
    rw [deserialize, hslice, okOr_some, ok_bind, hparse, ok_bind]
    dsimp only
    rw [enforcePlaintextLimit_of h.limit_le, ok_bind, hframe, ok_bind]
    dsimp only
    rw [hopen, ok_bind, require_of rfl, ok_bind, hpayload]

/-- A reader that starts with a frame that is accepted is left behind the frame. -/
lemma deserializeFrom_append {nonce : XNonce} {plaintext ciphertext : List UInt8}
    (h : c.Sealed nonce plaintext ciphertext) (hsize : headerLen + ciphertext.length ≤ isizeMax)
    (rest : List UInt8) :
    c.deserializeFrom (headerOf nonce plaintext ++ (ciphertext ++ rest)) =
      (c.deserialize (headerOf nonce plaintext ++ ciphertext), rest) := by
  have hlen := h.length_eq
  have hheader : (headerOf nonce plaintext).length = headerLen := length_headerBytes _ _ _
  have hread : readExact headerLen (headerOf nonce plaintext ++ (ciphertext ++ rest)) =
      (.ok (headerOf nonce plaintext), ciphertext ++ rest) := by
    rw [readExact, if_pos (by rw [List.length_append, hheader]; omega), List.take_left' hheader,
      List.drop_left' hheader]
  have hparse : parseHeader (headerOf nonce plaintext) =
      .ok (nonce, plaintext.length, ciphertext.length) :=
    parseHeader_eq_ok.mpr ⟨by rw [hlen]; rfl, hlen, (Nat.le_add_left _ _).trans h.size_le⟩
  have hadd : checkedAdd headerLen ciphertext.length = some (headerLen + ciphertext.length) :=
    if_pos h.size_le
  have hend : readToEnd ciphertext.length (ciphertext ++ rest) = (.ok ciphertext, rest) := by
    rw [readToEnd, List.take_left, List.drop_left]
  have hwhole : (headerOf nonce plaintext ++ ciphertext).length =
      headerLen + ciphertext.length := by
    rw [List.length_append, hheader]
  rw [deserializeFrom, Act.bind_of_ok hread, hparse, Act.bind_of_ok (Act.call_run _ _)]
  dsimp only
  rw [enforcePlaintextLimit_of h.limit_le, Act.bind_of_ok (Act.call_run _ _),
    require_of ((Nat.le_add_left _ _).trans h.size_le), Act.bind_of_ok (Act.call_run _ _), hadd,
    okOr_some, Act.bind_of_ok (Act.call_run _ _), require_of hsize,
    Act.bind_of_ok (Act.call_run _ _), Act.bind_of_ok hend, require_of hwhole,
    Act.bind_of_ok (Act.call_run _ _), Act.call_run]

/-! ## Writing -/

/-- The payload and its frame keep the limits: that of the plaintext, those of the compressed
format, whose lengths are 32 bits wide, and what a vector of bytes can hold. -/
structure WithinLimits (c : EncryptedConfig T) (value : T) (plaintext : List UInt8) : Prop where
  serialize_eq : c.payload.serializePayload value = .ok plaintext
  payload : c.payload.WithinLimits value
  limit_le : ∀ limit, c.plaintextLimit = some limit → plaintext.length ≤ limit
  size_le : headerLen + (plaintext.length + padTo16 plaintext.length) + 16 ≤ isizeMax

/-- What is written. -/
lemma exists_serialize {value : T} {plaintext : List UInt8} (nonce : XNonce)
    (h : c.WithinLimits value plaintext) : ∃ ciphertext, c.Sealed nonce plaintext ciphertext ∧
      c.serialize (.ok nonce) value = .ok (headerOf nonce plaintext ++ ciphertext) := by
  have hsize := h.size_le
  have hheader : (headerOf nonce plaintext).length = headerLen := length_headerBytes _ _ _
  have hword : isizeMax ≤ u64Max := by decide
  have hpad : padTo16 headerLen = 0 := by decide
  have hbytes : headerLen = 48 ∧ tagLen = 16 := ⟨rfl, rfl⟩
  have hmessage : (headerOf nonce plaintext).length + padTo16 (headerOf nonce plaintext).length +
      (xchacha20Encrypt c.key nonce plaintext).length +
      padTo16 (xchacha20Encrypt c.key nonce plaintext).length + 16 ≤ isizeMax := by
    rw [hheader, length_xchacha20Encrypt, hpad]
    omega
  obtain ⟨tag, htag⟩ := exists_poly1305Tag c.key nonce hmessage
  have hencrypt : encrypt c.key nonce (headerOf nonce plaintext) plaintext =
      .ok (xchacha20Encrypt c.key nonce plaintext ++ tag) :=
    encrypt_eq_ok.mpr ⟨tag, htag, by omega, rfl⟩
  have hlen : (xchacha20Encrypt c.key nonce plaintext ++ tag).length =
      plaintext.length + tagLen := by
    rw [List.length_append, length_xchacha20Encrypt, length_of_poly1305Tag htag]
  refine ⟨xchacha20Encrypt c.key nonce plaintext ++ tag, ⟨?_, ?_, h.limit_le⟩, ?_⟩
  · exact (decrypt_eq_ok_iff (by rw [hlen]; omega)).mpr hencrypt
  · rw [hlen]
    omega
  · have hadd : checkedAdd plaintext.length tagLen = some (plaintext.length + tagLen) :=
      if_pos (by omega)
    have hwrite : header nonce plaintext.length (plaintext.length + tagLen) =
        .ok (headerOf nonce plaintext) := header_eq_ok (by omega) (by omega)
    have hreserve : saturatingAdd headerLen (xchacha20Encrypt c.key nonce plaintext ++ tag).length ≤
        isizeMax := (Nat.min_le_left _ _).trans (by rw [hlen]; omega)
    have hseal : (encrypt c.key nonce (headerOf nonce plaintext) plaintext).mapErr
        (fun _ => Error.encryption) = .ok (xchacha20Encrypt c.key nonce plaintext ++ tag) :=
      mapErr_eq_ok.mpr hencrypt
    rw [serialize, h.serialize_eq, ok_bind, enforcePlaintextLimit_of h.limit_le, ok_bind, mapErr,
      ok_bind, hadd, okOr_some, ok_bind, hwrite, ok_bind, hseal, ok_bind, require_of hlen, ok_bind,
      require_of hreserve, ok_bind]

/-- What is written is a header and what it seals. -/
lemma sealed_of_serialize {random : Outcome String XNonce} {value : T} {frame : List UInt8}
    (h : c.serialize random value = .ok frame) :
    ∃ nonce plaintext ciphertext, random = .ok nonce ∧
      c.payload.serializePayload value = .ok plaintext ∧ c.Sealed nonce plaintext ciphertext ∧
      headerLen + ciphertext.length ≤ isizeMax ∧ frame = headerOf nonce plaintext ++ ciphertext := by
  obtain ⟨plaintext, hplaintext, h⟩ := bind_eq_ok.mp h
  obtain ⟨_, hlimit, h⟩ := bind_eq_ok.mp h
  obtain ⟨nonce, hrandom, h⟩ := bind_eq_ok.mp h
  obtain ⟨ciphertextLen, hadd, h⟩ := bind_eq_ok.mp h
  obtain ⟨head, hhead, h⟩ := bind_eq_ok.mp h
  obtain ⟨ciphertext, hencrypt, h⟩ := bind_eq_ok.mp h
  obtain ⟨_, hlen, h⟩ := bind_eq_ok.mp h
  obtain ⟨_, hreserve, h⟩ := bind_eq_ok.mp h
  obtain rfl := Outcome.ok.inj h
  have hword : isizeMax < u64Max := by decide
  have hsize : headerLen + ciphertext.length ≤ isizeMax := by
    have hmin := require_eq_ok.mp hreserve
    rw [saturatingAdd] at hmin
    omega
  obtain rfl := checkedAdd_eq_some (okOr_eq_ok.mp hadd)
  have hcount := require_eq_ok.mp hlen
  rw [header_eq_ok (by omega) (by omega)] at hhead
  obtain rfl := Outcome.ok.inj hhead
  refine ⟨nonce, plaintext, ciphertext, mapErr_eq_ok.mp hrandom, hplaintext, ⟨?_, by omega,
    enforcePlaintextLimit_eq_ok.mp hlimit⟩, hsize, rfl⟩
  exact (decrypt_eq_ok_iff (by omega)).mpr (mapErr_eq_ok.mp hencrypt)

/-- What is written is read back. -/
lemma deserialize_of_serialize {random : Outcome String XNonce} {value : T} {frame : List UInt8}
    (h : c.serialize random value = .ok frame) (hwithin : c.payload.WithinLimits value) :
    c.deserialize frame = .ok value := by
  obtain ⟨nonce, plaintext, ciphertext, -, hplaintext, hsealed, -, rfl⟩ := sealed_of_serialize h
  exact deserialize_eq_ok.mpr ⟨nonce, plaintext, ciphertext, [], hsealed, by rw [List.append_nil],
    fun _ => rfl, PayloadFormat.deserializePayload_serializePayload hplaintext hwithin⟩

/-- **Sealing and opening.** A byte string of any length opens to `m` exactly when it is what `m` is
sealed to.  So a value within the limits comes back from its frame; and a frame that is accepted is
its header and what is sealed under it, up to a tail that the configuration allows, and a reader that
starts with it is left behind it. -/
theorem sealed_frames :
    (∀ (key : Key) (nonce : XNonce) (aad : List UInt8) (msg : Slice 1 UInt8) (m : List UInt8),
      decrypt key nonce aad msg.elems = .ok m ↔ encrypt key nonce aad m = .ok msg.elems) ∧
    ∀ (T : Type) (c : EncryptedConfig T),
      (∀ nonce value plaintext, c.WithinLimits value plaintext → ∃ frame,
        c.serialize (.ok nonce) value = .ok frame ∧ c.deserialize frame = .ok value) ∧
      ∀ (input : Slice 1 UInt8) (value : T), c.deserialize input.elems = .ok value →
        ∃ nonce plaintext head ciphertext tail,
          header nonce plaintext.length ciphertext.length = .ok head ∧
          encrypt c.key nonce head plaintext = .ok ciphertext ∧
          input.elems = head ++ (ciphertext ++ tail) ∧
          (c.payload.trailingPolicy = .reject → tail = []) ∧
          c.payload.deserializePayload plaintext = .ok value ∧
          ∀ rest, c.deserializeFrom (input.elems ++ rest) = (.ok value, tail ++ rest) := by
  refine ⟨fun key nonce aad msg m => decrypt_eq_ok_iff (by simpa using msg.length_le),
    fun T c => ⟨fun nonce value plaintext h => ?_, fun input value h => ?_⟩⟩
  · obtain ⟨ciphertext, hsealed, hserialize⟩ := exists_serialize nonce h
    refine ⟨_, hserialize, deserialize_eq_ok.mpr ⟨nonce, plaintext, ciphertext, [], hsealed, ?_,
      fun _ => rfl, PayloadFormat.deserializePayload_serializePayload h.serialize_eq h.payload⟩⟩
    rw [List.append_nil]
  · obtain ⟨nonce, plaintext, ciphertext, tail, hsealed, hinput, htail, hpayload⟩ :=
      deserialize_eq_ok.mp h
    have hlen := hsealed.length_eq
    have hsize : headerLen + ciphertext.length ≤ isizeMax := by
      have hslice := input.length_le
      rw [one_mul, hinput, List.length_append, List.length_append] at hslice
      have hheader : (headerOf nonce plaintext).length = headerLen := length_headerBytes _ _ _
      omega
    have hword : isizeMax ≤ u64Max := by decide
    have hopen := (decrypt_eq_ok_iff (by omega)).mp hsealed.opens
    have hwhole : c.deserialize (headerOf nonce plaintext ++ ciphertext) = .ok value :=
      deserialize_eq_ok.mpr ⟨nonce, plaintext, ciphertext, [], hsealed, by rw [List.append_nil],
        fun _ => rfl, hpayload⟩
    refine ⟨nonce, plaintext, headerOf nonce plaintext, ciphertext, tail, ?_, hopen, hinput, htail,
      hpayload, fun rest => ?_⟩
    · rw [hlen]
      exact header_eq_ok (by omega) (by omega)
    · rw [hinput, List.append_assoc, List.append_assoc, deserializeFrom_append hsealed hsize, hwhole]

end EncryptedConfig

/-! ## A format that writes bytes as they are -/

def sampleFormat : Compression.PayloadFormat (List UInt8) where
  base := Config.standard
  serialize bytes :=
    if bytes.length ≤ RustBinary.defaultSizeLimit then .ok bytes
    else .err (.sizeLimit RustBinary.defaultSizeLimit)
  deserialize bytes := .ok bytes
  deserialize_serialize value payload h := by
    split at h
    · exact h.symm
    · cases h
  length_le value payload h limit hlimit := by
    split at h
    · next hle =>
        cases h
        cases hlimit
        exact hle
    · cases h

def sampleConfig : EncryptedConfig (List UInt8) := .binary sampleFormat (Vector.replicate 32 0x42)

def sampleFrame : Slice 1 UInt8 where
  elems := magic ++ [1, 0, 1, 0] ++ List.replicate 24 0x99 ++ leBytes 8 2 ++ leBytes 8 18 ++
    [216, 225, 128, 4, 62, 223, 254, 255, 186, 51, 146, 136, 243, 159, 192, 99, 81, 212]
  length_le := by decide

theorem sealed_frames_sample :
    (∃ frame, sampleConfig.serialize (.ok (Vector.replicate 24 0x99)) [0x61, 0x62] = .ok frame ∧
      sampleConfig.deserialize frame = .ok [0x61, 0x62]) ∧
    ∃ nonce plaintext head ciphertext tail,
      header nonce plaintext.length ciphertext.length = .ok head ∧
      encrypt sampleConfig.key nonce head plaintext = .ok ciphertext ∧
      sampleFrame.elems = head ++ (ciphertext ++ tail) ∧
      (sampleConfig.payload.trailingPolicy = .reject → tail = []) ∧
      sampleConfig.payload.deserializePayload plaintext = .ok [0x61, 0x62] ∧
      ∀ rest, sampleConfig.deserializeFrom (sampleFrame.elems ++ rest) =
        (.ok [0x61, 0x62], tail ++ rest) := by
  have hwithin : sampleConfig.WithinLimits [0x61, 0x62] [0x61, 0x62] :=
    ⟨by decide, trivial, fun limit h => by cases h; decide, by decide⟩
  have haccepted : sampleConfig.deserialize sampleFrame.elems = .ok [0x61, 0x62] := by
    decide +kernel
  obtain ⟨hwritten, hread⟩ := EncryptedConfig.sealed_frames.2 (List UInt8) sampleConfig
  exact ⟨hwritten (Vector.replicate 24 0x99) _ _ hwithin, hread sampleFrame _ haccepted⟩

end RustBinary.Encryption
