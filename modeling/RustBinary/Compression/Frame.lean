import RustBinary.Core.Codec
import RustBinary.Core.Slice
import RustBinary.Lz.RoundTrip

/-!
# Compressed frames

A payload format with compression around it: a header with the raw and the stored length, and
either the payload or what the compressor has made of it, if that is shorter.  A frame is read
from memory, or from a reader, of which no more is taken than the header declares.
-/

namespace RustBinary.Compression

open Lib Lib.Outcome

def magic : List UInt8 := [0x52, 0x42, 0x5a, 0x31]

def version : ℕ := 1

/-- The flag of a compressed payload. -/
def compressed : ℕ := 1

def headerLen : ℕ := 24

def defaultSizeLimit : ℕ := 64 * 1024 * 1024

/-- The errors of the payload formats and of the frames, and those that come from the compressor
and from a reader. -/
inductive Error where
  | wire (error : RustBinary.Error)
  | compression (message : String)
  | unexpectedEof
deriving DecidableEq, Repr

/-- `LzError`, as its message. -/
def lzMessage : Lz.LzError → String
  | .unexpectedEnd => "LZ77 stream ended unexpectedly"
  | .invalidDistance => "LZ77 match distance out of range"
  | .lengthMismatch => "LZ77 decompressed length mismatch"

def lzError (error : Lz.LzError) : Error := .compression (lzMessage error)

/-- A payload format: a configuration and its codec for the values of one type.  The encoders of
both formats compare every write with the limit. -/
structure PayloadFormat (T : Type) extends PayloadCodec T where
  base : Config
  length_le : ∀ value payload, serialize value = .ok payload →
    ∀ limit, base.limit = some limit → payload.length ≤ limit

structure CompressedConfig (T : Type) where
  payload : PayloadFormat T
  level : ℤ
  threshold : ℕ

/-! ## Headers -/

/-- `header`. -/
def header (flags rawLen storedLen : ℕ) : Outcome Error (List UInt8) := do
  require (rawLen ≤ u64Max) (.wire (.integerOverflow "u64"))
  require (storedLen ≤ u64Max) (.wire (.integerOverflow "u64"))
  .ok (magic ++ (leBytes 2 version ++ (leBytes 2 flags ++ (leBytes 8 rawLen ++
    leBytes 8 storedLen))))

/-- What a header says about the two lengths. -/
def checkLengths (flags rawLen storedLen : ℕ) : Outcome Error Unit :=
  if flags &&& compressed ≠ 0 then
    require (storedLen < rawLen)
      (.wire (.invalidFrame "compressed payload must be smaller than its raw payload"))
  else
    require (storedLen = rawLen)
      (.wire (.invalidFrame "raw compression frame has inconsistent lengths"))

/-- `parse_header`. -/
def parseHeader (header : List UInt8) : Outcome Error (ℕ × ℕ × ℕ) := do
  require (header.length = headerLen) (.wire (.invalidFrame "invalid compression header length"))
  require (header.take 4 = magic) (.wire (.invalidFrame "bad compression magic"))
  require (leNat ((header.drop 4).take 2) = version)
    (.wire (.invalidFrame "unsupported compression frame version"))
  let flags := leNat ((header.drop 6).take 2)
  require (flags &&& (0xffff - compressed) = 0)
    (.wire (.invalidFrame "unknown compression frame flags"))
  let rawLen := leNat ((header.drop 8).take 8)
  let storedLen := leNat ((header.drop 16).take 8)
  checkLengths flags rawLen storedLen
  .ok (flags, rawLen, storedLen)

/-- `parse_frame`. -/
def parseFrame (input : List UInt8) (trailing : TrailingBytes) :
    Outcome Error (ℕ × ℕ × ℕ × List UInt8) := do
  let header ← okOr (slice input 0 headerLen) (.wire .unexpectedEnd)
  let (flags, rawLen, storedLen) ← parseHeader header
  require (storedLen ≤ u64Max) (.wire (.integerOverflow "usize"))
  let stop ← okOr (checkedAdd headerLen storedLen) (.wire .unexpectedEnd)
  let stored ← okOr (slice input headerLen stop) (.wire .unexpectedEnd)
  require (trailing = .reject → stop = input.length)
    (.wire (.trailingBytes (input.length - stop)))
  .ok (flags, rawLen, storedLen, stored)

/-! ## Frames -/

namespace CompressedConfig

variable {T : Type}

/-- `enforce_raw_limit`. -/
def enforceRawLimit (c : CompressedConfig T) (rawLen : ℕ) : Outcome Error Unit :=
  let bound := c.payload.base.limit.getD defaultSizeLimit
  require (rawLen ≤ bound) (.wire (.sizeLimit bound))

/-- What the compressor makes of a payload that is long enough. -/
def compressPayload (c : CompressedConfig T) (raw : List UInt8) :
    Outcome Error (Option (List UInt8)) :=
  if c.threshold ≤ raw.length then do
    let packed ← (Lz.compress raw c.level).mapErr lzError
    .ok (if packed.isEmpty then none else some packed)
  else .ok none

/-- The flags and the stored bytes of a payload. -/
def store (raw : List UInt8) : Option (List UInt8) → ℕ × List UInt8
  | some bytes => if bytes.length < raw.length then (compressed, bytes) else (0, raw)
  | none => (0, raw)

/-- `serialize`. -/
def serialize (c : CompressedConfig T) (value : T) : Outcome Error (List UInt8) := do
  let raw ← (c.payload.serialize value).mapErr .wire
  let packed ← c.compressPayload raw
  let stored := store raw packed
  -- `try_reserve_exact`
  require (saturatingAdd headerLen stored.2.length ≤ isizeMax) (.wire (.sizeLimit u64Max))
  let header ← header stored.1 raw.length stored.2.length
  .ok (header ++ stored.2)

/-- The payload of a frame. -/
def unpackPayload (flags rawLen storedLen : ℕ) (stored : List UInt8) :
    Outcome Error (List UInt8) :=
  if flags &&& compressed ≠ 0 then do
    let cap ← okOr (checkedAdd rawLen 1) (.wire (.sizeLimit u64Max))
    let payload ← (Lz.decompress stored cap).mapErr lzError
    require (payload.length = rawLen)
      (.wire (.invalidFrame "decompressed length does not match compression header"))
    .ok payload
  else do
    require (storedLen = rawLen)
      (.wire (.invalidFrame "raw compression frame has inconsistent lengths"))
    .ok stored

/-- `deserialize`. -/
def deserialize (c : CompressedConfig T) (input : List UInt8) : Outcome Error T := do
  let header ← okOr (slice input 0 headerLen) (.wire .unexpectedEnd)
  let (_, declaredRawLen, _) ← parseHeader header
  c.enforceRawLimit declaredRawLen
  let (flags, rawLen, storedLen, stored) ← parseFrame input c.payload.base.trailing
  let payload ← unpackPayload flags rawLen storedLen stored
  (c.payload.deserialize payload).mapErr .wire

/-- `read_exact`, of a reader that holds a stream. -/
def readExact (count : ℕ) : Act (List UInt8) Error (List UInt8) := fun stream =>
  if count ≤ stream.length then (.ok (stream.take count), stream.drop count)
  else (.err .unexpectedEof, [])

/-- `take(count).read_to_end`. -/
def readToEnd (count : ℕ) : Act (List UInt8) Error (List UInt8) := fun stream =>
  (.ok (stream.take count), stream.drop count)

/-- `deserialize_from`. -/
def deserializeFrom (c : CompressedConfig T) : Act (List UInt8) Error T := do
  let header ← readExact headerLen
  let (_, rawLen, storedLen) ← Act.call (parseHeader header)
  Act.call (c.enforceRawLimit rawLen)
  Act.call (require (storedLen ≤ u64Max) (.wire (.integerOverflow "usize")))
  let frameLen ← Act.call (okOr (checkedAdd headerLen storedLen)
    (.wire (.invalidFrame "compression frame size overflow")))
  -- `try_reserve_exact`
  Act.call (require (frameLen ≤ isizeMax) (.wire (.sizeLimit u64Max)))
  let stored ← readToEnd storedLen
  let frame := header ++ stored
  Act.call (require (frame.length = headerLen + storedLen) (.wire .unexpectedEnd))
  Act.call (c.deserialize frame)

end CompressedConfig

end RustBinary.Compression
