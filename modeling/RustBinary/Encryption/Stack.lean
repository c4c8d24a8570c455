import RustBinary.Compression.Pipeline
import RustBinary.Encryption.Exact
import RustBinary.Lib.Run
import RustBinary.Native.Format

/-!
# Serialization, compression and encryption

The whole stack under a byte limit that the compressor admits.  The limit of the plaintext that
comes with an encrypted compression is that of the payload and a header, so that the encryption
turns no compressed frame away; and since a frame says how long it is, frames can be written one
behind the other and read off a stream.
-/

namespace RustBinary.Encryption

open Lib Lib.Outcome Aead Compression

variable {T : Type} (payload : Compression.PayloadFormat T) {limit : ℕ} (level : ℤ) (threshold : ℕ)
  (key : Key)

/-- `with_encryption` of a compression of the payload. -/
abbrev stack : EncryptedConfig T := .compressed ⟨payload, level, threshold⟩ key

variable {payload}

/-- What a value is sealed to in the stack. -/
structure StackSealed (payload : Compression.PayloadFormat T) (level : ℤ) (threshold : ℕ)
    (key : Key) (nonce : XNonce) (value : T) (raw plaintext ciphertext : List UInt8) : Prop where
  sealed : (stack payload level threshold key).Sealed nonce plaintext ciphertext
  size_le : headerLen + ciphertext.length ≤ isizeMax
  length_le : plaintext.length ≤ Compression.headerLen + raw.length
  deserialize_eq : (stack payload level threshold key).deserialize
    (EncryptedConfig.headerOf nonce plaintext ++ ciphertext) = .ok value

/-- What has been written was serialized. -/
lemma payload_of_serialize {random : Outcome String XNonce} {value : T} {frame : List UInt8}
    (h : (stack payload level threshold key).serialize random value = .ok frame) :
    ∃ raw, payload.serialize value = .ok raw := by
  obtain ⟨_, plaintext, _, -, hplaintext, -⟩ := EncryptedConfig.sealed_of_serialize h
  have hcompressed : CompressedConfig.serialize ⟨payload, level, threshold⟩ value = .ok plaintext :=
    mapErr_eq_ok.mp hplaintext
  rw [CompressedConfig.serialize, bind_eq_ok] at hcompressed
  obtain ⟨raw, hraw, -⟩ := hcompressed
  exact ⟨raw, mapErr_eq_ok.mp hraw⟩

/-- Neither the compression nor the encryption turns a payload within the limit away. -/
lemma serialize_of_payload (hlimit : payload.base.limit = some limit) (hmax : limit ≤ 2 ^ 32 - 1)
    (nonce : XNonce) {value : T} {raw : List UInt8} (hraw : payload.serialize value = .ok raw) :
    ∃ plaintext ciphertext,
      StackSealed payload level threshold key nonce value raw plaintext ciphertext ∧
      (stack payload level threshold key).serialize (.ok nonce) value =
        .ok (EncryptedConfig.headerOf nonce plaintext ++ ciphertext) := by
  have hle := payload.length_le value raw hraw limit hlimit
  have hword : raw.length < 2 ^ 32 := by omega
  obtain ⟨flags, stored, hstores, hserialize⟩ :=
    CompressedConfig.serialize_eq (c := ⟨payload, level, threshold⟩) hraw hword
  obtain ⟨plaintext, hplaintext⟩ : ∃ plaintext,
      plaintext = Compression.headerBytes flags raw.length stored.length ++ stored := ⟨_, rfl⟩
  have hlength : plaintext.length ≤ Compression.headerLen + raw.length := by
    rw [hplaintext, List.length_append, Compression.length_headerBytes]
    exact Nat.add_le_add_left hstores.length_le _
  have hcompressed : Compression.headerLen = 24 := rfl
  have hsealed : headerLen = 48 ∧ tagLen = 16 := ⟨rfl, rfl⟩
  have hpad : padTo16 plaintext.length < 16 := Nat.mod_lt _ (by decide)
  have hmachine : isizeMax = 2 ^ 63 - 1 := rfl
  have hwithin : (stack payload level threshold key).WithinLimits value plaintext := by
    refine ⟨?_, fun raw' hraw' => ?_, fun bound hbound => ?_, by omega⟩
    · rw [hplaintext]
      exact mapErr_eq_ok.mpr hserialize
    · obtain rfl := Outcome.ok.inj (hraw.symm.trans hraw')
      rw [show (⟨payload, level, threshold⟩ : CompressedConfig T).payload.base.limit = some limit
        from hlimit]
      exact ⟨hle, hword⟩
    · rw [← Option.some.inj hbound, hlimit, saturatingAdd, Option.getD_some, u64Max]
      omega
  obtain ⟨ciphertext, hopens, hframe⟩ := EncryptedConfig.exists_serialize nonce hwithin
  have hsize := hopens.length_eq
  refine ⟨plaintext, ciphertext, ⟨hopens, by omega, hlength, ?_⟩, hframe⟩
  refine EncryptedConfig.deserialize_eq_ok.mpr ⟨nonce, plaintext, ciphertext, [], hopens, ?_,
    fun _ => rfl, PayloadFormat.deserializePayload_serializePayload hwithin.serialize_eq
      hwithin.payload⟩
  rw [List.append_nil]

variable {level threshold key} in
/-- A frame at the front of a stream is read off it. -/
lemma StackSealed.deserializeFrom {nonce : XNonce} {value : T}
    {raw plaintext ciphertext : List UInt8}
    (h : StackSealed payload level threshold key nonce value raw plaintext ciphertext)
    (rest : List UInt8) :
    (stack payload level threshold key).deserializeFrom
        (EncryptedConfig.headerOf nonce plaintext ++ ciphertext ++ rest) = (.ok value, rest) := by
  rw [List.append_assoc, EncryptedConfig.deserializeFrom_append h.sealed h.size_le,
    h.deserialize_eq]

/-- The next value of a stream. -/
def EncryptedConfig.next (c : EncryptedConfig T) (_ : Unit) (stream : List UInt8) :
    Outcome Error T × List UInt8 :=
  c.deserializeFrom stream

/-- **The whole stack.**  Under a byte limit of at most `u32::MAX`, whatever the format, the level,
the threshold, the key and the nonces: every value that is serialized is compressed and sealed,
into at most 88 bytes more than its payload, and the frame is opened again; a value that is not
serialized is refused with the error of the format; and the frames of any values, one behind the
other on a stream, are read off it one by one, up to what is behind the last one. -/
theorem stack_roundTrip (payload : Compression.PayloadFormat T) (limit : ℕ)
    (hlimit : payload.base.limit = some limit) (hmax : limit ≤ 2 ^ 32 - 1) (level : ℤ)
    (threshold : ℕ) (key : Key) :
    (∀ nonce value raw, payload.serialize value = .ok raw → ∃ frame,
      (stack payload level threshold key).serialize (.ok nonce) value = .ok frame ∧
        frame.length ≤ 88 + raw.length ∧
        (stack payload level threshold key).deserialize frame = .ok value) ∧
    (∀ random value e, payload.serialize value = .err e →
      (stack payload level threshold key).serialize random value = .err (.payload (.wire e))) ∧
    ∀ (sent : List (XNonce × T)) (frames : List (List UInt8)),
      List.Forall₂ (fun s frame => (stack payload level threshold key).serialize (.ok s.1) s.2
        = .ok frame) sent frames →
      ∀ rest, run (stack payload level threshold key).next (List.replicate sent.length ())
        (frames.flatten ++ rest) = (sent.map fun s => .ok s.2, rest) := by
  refine ⟨fun nonce value raw hraw => ?_, fun random value e he => ?_, fun sent frames hsent => ?_⟩
  · obtain ⟨plaintext, ciphertext, h, hframe⟩ :=
      serialize_of_payload level threshold key hlimit hmax nonce hraw
    have hsize := h.sealed.length_eq
    have hlength := h.length_le
    have hcompressed : Compression.headerLen = 24 := rfl
    have htag : tagLen = 16 := rfl
    refine ⟨_, hframe, ?_, h.deserialize_eq⟩
    rw [List.length_append, EncryptedConfig.headerOf, length_headerBytes, headerLen]
    omega
  · rw [EncryptedConfig.serialize]
    change ((CompressedConfig.serialize ⟨payload, level, threshold⟩ value).mapErr Error.payload
      >>= _) = _
    rw [CompressedConfig.serialize, he]
    rfl
  · induction hsent with
    | nil => exact fun rest => rfl
    | @cons s frame sent frames hserialize _ ih =>
        intro rest
        obtain ⟨raw, hraw⟩ := payload_of_serialize level threshold key hserialize
        obtain ⟨plaintext, ciphertext, h, hframe⟩ :=
          serialize_of_payload level threshold key hlimit hmax s.1 hraw
        obtain rfl := Outcome.ok.inj (hserialize.symm.trans hframe)
        have hnext : (stack payload level threshold key).next ()
            (EncryptedConfig.headerOf s.1 plaintext ++ ciphertext ++ (frames.flatten ++ rest))
              = (.ok s.2, frames.flatten ++ rest) := h.deserializeFrom _
        rw [List.flatten_cons, List.append_assoc, List.map_cons, List.length_cons,
          List.replicate_succ, run_cons_of hnext, ih rest]

section Case

local instance stackTarget : Target := ⟨true⟩

/-- Strings, with an error of the encoder that does not matter here. -/
def strings : Compression.PayloadFormat String :=
  Native.WireType.text.format (fun _ => .unexpectedEnd) .standard

/-- Two strings on one stream. -/
theorem stack_roundTrip_strings :
    ∃ frames : List (List UInt8), frames.length = 2 ∧
      run (stack strings 1 0 (Vector.replicate 32 0x42)).next [(), ()] (frames.flatten ++ [7])
        = ([.ok "hi", .ok "b"], [7]) := by
  obtain ⟨hwrite, -, hread⟩ :=
    stack_roundTrip strings _ rfl (by decide) 1 0 (Vector.replicate 32 0x42)
  have hhi : strings.serialize "hi" = .ok [9, 2, 104, 105] := by decide +kernel
  have hb : strings.serialize "b" = .ok [9, 1, 98] := by decide +kernel
  obtain ⟨first, hfirst, -⟩ := hwrite (Vector.replicate 24 1) _ _ hhi
  obtain ⟨second, hsecond, -⟩ := hwrite (Vector.replicate 24 2) _ _ hb
  exact ⟨[first, second], rfl, hread [(Vector.replicate 24 1, "hi"), (Vector.replicate 24 2, "b")]
    _ (.cons hfirst (.cons hsecond .nil)) [7]⟩

end Case

end RustBinary.Encryption
