import RustBinary.Aead.Seal
import RustBinary.Compression.Frame

/-!
# Encrypted frames

Authenticated encryption around a payload format: a header with the nonce and both lengths, which is
the associated data, and the sealed payload.  A frame is read from memory, or from a reader, of
which no more is taken than the header declares.
-/

namespace RustBinary.Encryption

open Lib Lib.Outcome Aead Compression

def magic : List UInt8 := [0x52, 0x42, 0x58, 0x31]

def version : ℕ := 1

def algorithmXchacha20Poly1305 : ℕ := 1

def nonceLen : ℕ := 24

def headerLen : ℕ := 48

/-- The errors of what is encrypted, and those of the encryption. -/
inductive Error where
  | payload (error : Compression.Error)
  | randomness (message : String)
  | encryption
deriving DecidableEq, Repr

def wireError (error : RustBinary.Error) : Error := .payload (.wire error)

/-! ## Payload formats -/

inductive PayloadFormat (T : Type) where
  | binary (config : Compression.PayloadFormat T)
  | cbor (config : Compression.PayloadFormat T)
  | compressed (config : CompressedConfig T)

/-- `resource_limit`. -/
def resourceLimit {T : Type} (c : CompressedConfig T) : Option ℕ :=
  some (saturatingAdd (c.payload.base.limit.getD defaultSizeLimit) Compression.headerLen)

namespace PayloadFormat

variable {T : Type}

/-- `serialize_payload`. -/
def serializePayload : PayloadFormat T → T → Outcome Error (List UInt8)
  | binary config, value => (config.serialize value).mapErr wireError
  | cbor config, value => (config.serialize value).mapErr wireError
  | compressed config, value => (config.serialize value).mapErr .payload

/-- `deserialize_payload`. -/
def deserializePayload : PayloadFormat T → List UInt8 → Outcome Error T
  | binary config, payload => (config.deserialize payload).mapErr wireError
  | cbor config, payload => (config.deserialize payload).mapErr wireError
  | compressed config, payload => (config.deserialize payload).mapErr .payload

/-- `trailing_policy`. -/
def trailingPolicy : PayloadFormat T → TrailingBytes
  | binary config => config.base.trailing
  | cbor config => config.base.trailing
  | compressed config => config.payload.base.trailing

end PayloadFormat

structure EncryptedConfig (T : Type) where
  payload : PayloadFormat T
  key : Key
  plaintextLimit : Option ℕ

/-! ## Headers -/

/-- `header`. -/
def header (nonce : XNonce) (plaintextLen ciphertextLen : ℕ) : Outcome Error (List UInt8) := do
  require (plaintextLen ≤ u64Max) (wireError (.integerOverflow "u64"))
  require (ciphertextLen ≤ u64Max) (wireError (.integerOverflow "u64"))
  .ok (magic ++ (leBytes 2 version ++ (leBytes 2 algorithmXchacha20Poly1305 ++
    (nonce.toList ++ (leBytes 8 plaintextLen ++ leBytes 8 ciphertextLen)))))

/-- `parse_header`. -/
def parseHeader (header : List UInt8) : Outcome Error (XNonce × ℕ × ℕ) := do
  require (header.length = headerLen ∧ header.take 4 = magic)
    (wireError (.invalidFrame "bad encryption header"))
  require (leNat ((header.drop 4).take 2) = version)
    (wireError (.invalidFrame "unsupported encryption frame version"))
  require (leNat ((header.drop 6).take 2) = algorithmXchacha20Poly1305)
    (wireError (.invalidFrame "unsupported encryption algorithm"))
  let nonce := arrayOf 24 ((header.drop 8).take nonceLen)
  let plaintextLen := leNat ((header.drop 32).take 8)
  let ciphertextLen := leNat ((header.drop 40).take 8)
  require (checkedAdd plaintextLen tagLen = some ciphertextLen)
    (wireError (.invalidFrame "AEAD ciphertext length does not match plaintext length"))
  .ok (nonce, plaintextLen, ciphertextLen)

/-- `parse_frame`. -/
def parseFrame (input : List UInt8) (trailing : TrailingBytes) :
    Outcome Error (XNonce × ℕ × List UInt8) := do
  let header ← okOr (slice input 0 headerLen) (wireError .unexpectedEnd)
  let (nonce, plaintextLen, ciphertextLen) ← parseHeader header
  require (ciphertextLen ≤ u64Max) (wireError (.integerOverflow "usize"))
  let stop ← okOr (checkedAdd headerLen ciphertextLen) (wireError .unexpectedEnd)
  let ciphertext ← okOr (slice input headerLen stop) (wireError .unexpectedEnd)
  require (trailing = .reject → stop = input.length)
    (wireError (.trailingBytes (input.length - stop)))
  .ok (nonce, plaintextLen, ciphertext)

/-! ## Frames -/

/-- `read_exact`, of a reader that holds a stream. -/
def readExact (count : ℕ) : Act (List UInt8) Error (List UInt8) := fun stream =>
  if count ≤ stream.length then (.ok (stream.take count), stream.drop count)
  else (.err (.payload .unexpectedEof), [])

/-- `take(count).read_to_end`. -/
def readToEnd (count : ℕ) : Act (List UInt8) Error (List UInt8) := fun stream =>
  (.ok (stream.take count), stream.drop count)

namespace EncryptedConfig

variable {T : Type}

/-- `EncryptedConfig::binary`. -/
def binary (config : Compression.PayloadFormat T) (key : Key) : EncryptedConfig T where
  payload := .binary config
  key := key
  plaintextLimit := config.base.limit

/-- `EncryptedConfig::cbor`. -/
def cbor (config : Compression.PayloadFormat T) (key : Key) : EncryptedConfig T where
  payload := .cbor config
  key := key
  plaintextLimit := config.base.limit

/-- `EncryptedConfig::compressed`. -/
def compressed (config : CompressedConfig T) (key : Key) : EncryptedConfig T where
  payload := .compressed config
  key := key
  plaintextLimit := resourceLimit config

/-- `with_plaintext_limit`. -/
def withPlaintextLimit (c : EncryptedConfig T) (limit : ℕ) : EncryptedConfig T :=
  { c with plaintextLimit := some limit }

/-- `enforce_plaintext_limit`. -/
def enforcePlaintextLimit (c : EncryptedConfig T) (length : ℕ) : Outcome Error Unit :=
  match c.plaintextLimit with
  | some limit => if limit < length then .err (wireError (.sizeLimit limit)) else .ok ()
  | none => .ok ()

/-- `serialize`, with what the system's source of randomness has given for the nonce. -/
def serialize (c : EncryptedConfig T) (random : Outcome String XNonce) (value : T) :
    Outcome Error (List UInt8) := do
  let plaintext ← c.payload.serializePayload value
  c.enforcePlaintextLimit plaintext.length
  let nonce ← random.mapErr .randomness
  let ciphertextLen ← okOr (checkedAdd plaintext.length tagLen) (wireError (.sizeLimit u64Max))
  let header ← header nonce plaintext.length ciphertextLen
  let ciphertext ← (encrypt c.key nonce header plaintext).mapErr fun _ => .encryption
  require (ciphertext.length = ciphertextLen)
    (wireError (.invalidFrame "AEAD ciphertext length mismatch"))
  -- `try_reserve_exact`
  require (saturatingAdd headerLen ciphertext.length ≤ isizeMax) (wireError (.sizeLimit u64Max))
  .ok (header ++ ciphertext)

/-- `deserialize`. -/
def deserialize (c : EncryptedConfig T) (input : List UInt8) : Outcome Error T := do
  let header ← okOr (slice input 0 headerLen) (wireError .unexpectedEnd)
  let (_, declaredPlaintextLen, _) ← parseHeader header
  c.enforcePlaintextLimit declaredPlaintextLen
  let (nonce, plaintextLen, ciphertext) ← parseFrame input c.payload.trailingPolicy
  let plaintext ← (decrypt c.key nonce header ciphertext).mapErr fun _ => .encryption
  require (plaintext.length = plaintextLen)
    (wireError (.invalidFrame "AEAD plaintext length mismatch"))
  c.payload.deserializePayload plaintext

/-- `deserialize_from`. -/
def deserializeFrom (c : EncryptedConfig T) : Act (List UInt8) Error T := do
  let header ← readExact headerLen
  let (_, plaintextLen, ciphertextLen) ← Act.call (parseHeader header)
  Act.call (c.enforcePlaintextLimit plaintextLen)
  Act.call (require (ciphertextLen ≤ u64Max) (wireError (.integerOverflow "usize")))
  let frameLen ← Act.call (okOr (checkedAdd headerLen ciphertextLen)
    (wireError (.invalidFrame "encryption frame size overflow")))
  -- `try_reserve_exact`
  Act.call (require (frameLen ≤ isizeMax) (wireError (.sizeLimit u64Max)))
  let stored ← readToEnd ciphertextLen
  let frame := header ++ stored
  Act.call (require (frame.length = headerLen + ciphertextLen) (wireError .unexpectedEnd))
  Act.call (c.deserialize frame)

end EncryptedConfig

end RustBinary.Encryption
