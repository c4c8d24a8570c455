import RustBinary.Adaptive.Integers
import RustBinary.Bitpack.Bits
import RustBinary.Core.Nextjson

/-!
# The adaptive codec of strings

A string is written as its UTF-8 bytes or, if it is ASCII and that is smaller, with seven bits for
a byte.  There are two decoders: one hands out a part of the input where it can, the other one
writes to an output of the caller.
-/

namespace RustBinary.Adaptive

open Lib Lib.Act Cursor Bitpack

/-- A `&str`: it spans no more than `isize::MAX` bytes. -/
structure Str where
  text : String
  length_le : (toUtf8 text).length ≤ isizeMax

/-- `as_bytes`. -/
def Str.bytes (value : Str) : List UInt8 := toUtf8 value.text

inductive StringStrategy where
  | rawUtf8
  | ascii7
deriving DecidableEq, Repr

/-- `RAW_UTF8` and `ASCII7`. -/
def StringStrategy.tag : StringStrategy → UInt8
  | rawUtf8 => 0
  | ascii7 => 1

/-- The strategy of a tag. -/
def stringStrategyOf (tag : UInt8) : Option StringStrategy :=
  if tag = 0 then some .rawUtf8 else if tag = 1 then some .ascii7 else none

def unknownStrategy : Error := .adaptive "unknown string strategy"

/-! ## The scan -/

/-- `u8::is_ascii`. -/
def byteIsAscii (byte : UInt8) : Bool := byte < 128

/-- The lanes that `movemask` tells: those with the top bit. -/
def topBit (byte : UInt8) : Bool := byte >>> 7 = 1

/-- `first_non_ascii`. -/
def firstNonAscii (backend : Backend) (bytes : List UInt8) : ℕ :=
  let special := fun byte => !byteIsAscii byte
  match backend with
  | .portable | .scalar => scalarIndex special bytes
  | .sse2 => vectorIndex 16 topBit special bytes.length bytes
  | .avx2 => vectorIndex 32 topBit special bytes.length bytes
  | .neon => vectorIndex 16 (fun byte => 127 < byte) special bytes.length bytes

/-- `is_ascii`. -/
def isAscii (backend : Backend) (bytes : List UInt8) : Bool :=
  match backend with
  | .portable => bytes.all byteIsAscii
  | _ => firstNonAscii backend bytes = bytes.length

/-! ## Encoding -/

/-- The bytes of a string of `length` bytes in seven bits each. -/
def packedSize (length : ℕ) : Option ℕ := do
  let bits ← checkedMul length 7
  let bits ← checkedAdd bits 7
  pure (bits / 8)

/-- The size of the string in seven bits, where the mode looks for it. -/
def asciiSize (backend : Backend) (value : Str) (mode : AdaptiveMode) :
    Outcome Error (Option ℕ) :=
  if mode = .off then pure none
  else if isAscii backend value.bytes then do
    let size ← Outcome.okOr (packedSize value.bytes.length) sizeOverflow
    pure (some size)
  else pure none

/-- The smaller one of two payloads. -/
def smaller (packed : Option ℕ) (rawSize : ℕ) : StringStrategy × ℕ :=
  match packed with
  | some size => if size < rawSize then (.ascii7, size) else (.rawUtf8, rawSize)
  | none => (.rawUtf8, rawSize)

/-- The size of a frame with a payload of `payloadSize` bytes. -/
def frameSize (count payloadSize : ℕ) : Outcome Error ℕ :=
  Outcome.okOr ((checkedAdd 1 (varintSize count)).bind fun size => checkedAdd size payloadSize)
    sizeOverflow

/-- `string_layout`: the strategy, the size of the payload and the size of the frame. -/
def stringLayout (backend : Backend) (value : Str) (mode : AdaptiveMode) :
    Outcome Error (StringStrategy × ℕ × ℕ) := do
  let packed ← asciiSize backend value mode
  let (strategy, payloadSize) := smaller packed value.bytes.length
  let required ← frameSize value.bytes.length payloadSize
  pure (strategy, payloadSize, required)

/-- The layout of a frame that is within the byte limit. -/
def limitedStringLayout (backend : Backend) (c : AdaptiveConfig) (value : Str) :
    Outcome Error (StringStrategy × ℕ × ℕ) := do
  let (strategy, payloadSize, required) ← stringLayout backend value c.mode
  c.base.enforceByteLimit required
  pure (strategy, payloadSize, required)

/-- `encoded_string_size`. -/
def encodedStringSize (backend : Backend) (c : AdaptiveConfig) (value : Str) :
    Outcome Error ℕ := do
  let (_, _, required) ← limitedStringLayout backend c value
  pure required

/-- The loop that packs bytes. -/
def writeAscii : List UInt8 → Act BitWriter Error Unit
  | [] => pure ()
  | byte :: bytes => do
      BitWriter.write byte.toNat 7
      writeAscii bytes

namespace OutputCursor

/-- `take_mut`, and a writer of bits on what it takes. -/
def packing (length : ℕ) (m : Act BitWriter Error Unit) : Act OutputCursor Error Unit :=
  fun cursor =>
    if length ≤ cursor.rest.length then
      let (outcome, writer) := m (BitWriter.new (cursor.rest.take length))
      (outcome, ⟨cursor.written ++ writer.output, cursor.rest.drop length⟩)
    else (.panic, cursor)

end OutputCursor

/-- The payload of a strategy. -/
def writePayload (payloadSize : ℕ) (bytes : List UInt8) :
    StringStrategy → Act OutputCursor Error Unit
  | .rawUtf8 => OutputCursor.bytes bytes
  | .ascii7 => OutputCursor.packing payloadSize (writeAscii bytes)

/-- `encode_string_into_slice`, on the output. -/
def encodeStringIntoSlice (backend : Backend) (c : AdaptiveConfig) (value : Str) :
    Act (List UInt8) Error ℕ := do
  let (strategy, payloadSize, required) ← call (limitedStringLayout backend c value)
  let output ← get
  if output.length < required then throw (.bufferTooSmall required output.length)
  else
    fill required do
      OutputCursor.byte strategy.tag
      OutputCursor.varint value.bytes.length
      writePayload payloadSize value.bytes strategy
    pure required

/-- `encode_string`. -/
def encodeString (backend : Backend) (c : AdaptiveConfig) (value : Str) :
    Outcome Error (List UInt8) :=
  if c.mode = .off then do
    let required ← frameSize value.bytes.length value.bytes.length
    c.base.enforceByteLimit required
    withCapacity 1 required
    pure (StringStrategy.rawUtf8.tag :: (encodeVarintLe value.bytes.length ++ value.bytes))
  else do
    let required ← encodedStringSize backend c value
    -- `try_reserve_exact`
    Outcome.require (required ≤ isizeMax) (.sizeLimit u64Max)
    let (outcome, output) := encodeStringIntoSlice backend c value (List.replicate required 0)
    let _ ← outcome
    pure output

/-! ## Decoding -/

/-- `string_strategy`. -/
def stringStrategy (input : Slice 1 UInt8) : Outcome Error StringStrategy := do
  let tag ← Outcome.okOr input.elems.head? .unexpectedEnd
  Outcome.okOr (stringStrategyOf tag) unknownStrategy

/-- `take`, as a slice. -/
def takeSlice (length : ℕ) : Act Cursor Error (Slice 1 UInt8) := do
  let bytes ← take length
  -- a part of a slice is a slice
  if h : 1 * bytes.length ≤ isizeMax then pure ⟨bytes, h⟩ else panic

/-- The bits and the packed bytes of `length` characters. -/
def takePacked (length : ℕ) : Act Cursor Error (ℕ × Slice 1 UInt8) := do
  let meaningfulBits ← okOr (checkedMul length 7) (.adaptive "ASCII7 length overflow")
  let packed ← okOr (checkedAdd meaningfulBits 7) (.adaptive "ASCII7 length overflow")
  let bytes ← takeSlice (packed / 8)
  pure (meaningfulBits, bytes)

/-- `validate_ascii_padding`. -/
def validateAsciiPadding (bytes : List UInt8) (meaningfulBits : ℕ) : Outcome Error Unit :=
  if meaningfulBits % 8 ≠ 0 ∧
      bytes.getLast?.any fun last => last >>> UInt8.ofNat (meaningfulBits % 8) ≠ 0 then
    .err (.adaptive "non-zero ASCII7 padding")
  else .ok ()

/-- A `Cow` of a string. -/
inductive Cow where
  | borrowed (value : String)
  | owned (value : String)
deriving DecidableEq, Repr

/-- `into_owned`. -/
def Cow.intoOwned : Cow → String
  | borrowed value => value
  | owned value => value

/-- The loop that pushes a character for each seven bits. -/
def pushAscii : ℕ → String → Act BitReader Error String
  | 0, value => pure value
  | length + 1, value => do
      let bits ← BitReader.read 7
      pushAscii length (value.push (Char.ofNat bits))

/-- The payload of `decode_string_borrowed`. -/
def textBorrowed (length : ℕ) : StringStrategy → Act Cursor Error Cow
  | .rawUtf8 => do
      let bytes ← take length
      let value ← okOr (fromUtf8 bytes) .invalidUtf8
      pure (.borrowed value)
  | .ascii7 => do
      let (meaningfulBits, bytes) ← takePacked length
      -- `try_reserve_exact`
      call (Outcome.require (length ≤ isizeMax) (.sizeLimit u64Max))
      let value ← call (pushAscii length "" (BitReader.new bytes)).1
      call (validateAsciiPadding bytes.elems meaningfulBits)
      pure (.owned value)

/-- What `decode_string_borrowed` reads in front of the end of the input. -/
def stringBorrowed : Act Cursor Error Cow := do
  let tag ← byte
  let length ← usizeVarint
  let strategy ← okOr (stringStrategyOf tag) unknownStrategy
  textBorrowed length strategy

/-- `decode_string_borrowed`. -/
def decodeStringBorrowed (c : AdaptiveConfig) (input : Slice 1 UInt8) : Outcome Error Cow := do
  c.base.enforceByteLimit input.elems.length
  whole stringBorrowed c.base.trailing input

/-- `decode_string`. -/
def decodeString (c : AdaptiveConfig) (input : Slice 1 UInt8) : Outcome Error String := do
  let value ← decodeStringBorrowed c input
  pure value.intoOwned

/-- A decoding into an output: the cursor and the bytes that have been written. -/
structure StringDecoding where
  cursor : Cursor
  written : List UInt8

namespace StringDecoding

variable {α : Type}

/-- Read from the input. -/
def reading (m : Act Cursor Error α) : Act StringDecoding Error α := fun s =>
  let (outcome, cursor) := m s.cursor
  (outcome, { s with cursor := cursor })

/-- Write the next bytes of the output. -/
def emit (bytes : List UInt8) : Act StringDecoding Error Unit :=
  modify fun s => { s with written := s.written ++ bytes }

/-- The loop that writes a byte for each seven bits, from `reader` on. -/
def fillSlots : ℕ → BitReader → Act StringDecoding Error Unit
  | 0, _ => pure ()
  | length + 1, reader => do
      let (outcome, reader) := BitReader.read 7 reader
      let bits ← call outcome
      emit [UInt8.ofNat bits]
      fillSlots length reader

/-- The header: the strategy and the length. -/
def header : Act Cursor Error (StringStrategy × ℕ) := do
  let tag ← byte
  let strategy ← okOr (stringStrategyOf tag) unknownStrategy
  let length ← usizeVarint
  pure (strategy, length)

/-- The payload, to the output. -/
def payload (strategy : StringStrategy) (length : ℕ) : Act StringDecoding Error Unit :=
  match strategy with
  | .rawUtf8 => do
      let bytes ← reading (take length)
      let _ ← okOr (fromUtf8 bytes) .invalidUtf8
      emit bytes
  | .ascii7 => do
      let (meaningfulBits, bytes) ← reading (takePacked length)
      fillSlots length (BitReader.new bytes)
      call (validateAsciiPadding bytes.elems meaningfulBits)

/-- The body of `decode_string_into_slice`, for an output of `available` bytes. -/
def body (c : AdaptiveConfig) (available : ℕ) : Act StringDecoding Error String := do
  let (strategy, length) ← reading header
  if available < length then throw (.bufferTooSmall length available)
  else
    payload strategy length
    reading (finish c.base.trailing)
    let s ← get
    okOr (fromUtf8 s.written) .invalidUtf8

end StringDecoding

/-- `decode_string_into_slice`, on the output. -/
def decodeStringIntoSlice (c : AdaptiveConfig) (input : Slice 1 UInt8) :
    Act (List UInt8) Error String := do
  call (c.base.enforceByteLimit input.elems.length)
  fun output =>
    let (outcome, s) := StringDecoding.body c output.length ⟨Cursor.new input, []⟩
    (outcome, s.written ++ output.drop s.written.length)

end RustBinary.Adaptive
