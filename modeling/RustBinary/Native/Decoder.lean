import RustBinary.Lib.Run
import RustBinary.Core.Canonical

/-!
# The self-describing decoder

The decoder of the self-describing wire, method by method: every value starts with a type
tag, and a container ends at a terminator byte.  A decoder is a cursor into the input with a
depth and, for each depth, the number of separators passed.  One token of lookahead can be
pending; the cursor is then already past it.

The methods that `FormatDecoder` has by default are put together from the calls given here,
so their callers are covered by sequences of these calls.
-/

namespace RustBinary.Native

open Lib Lib.Act

structure Decoder where
  input : Input
  cursor : ℕ
  config : Config
  depth : ℕ
  counts : Vector ℕ maxDepth
  lookahead : Option Token
  wireError : Option Error
  expecting : Option String

/-- An action of the decoder behind the `FormatDecoder` boundary. -/
abbrev Dec (α : Type) : Type := Act Decoder NextjsonError α

namespace Decoder

/-- The decoder that `from_slice_with_consumed` starts with. -/
def new (input : Input) (config : Config) : Decoder where
  input := input
  cursor := 0
  config := config
  depth := 0
  counts := Vector.replicate maxDepth 0
  lookahead := none
  wireError := none
  expecting := none

/-! ## Reading bytes -/

/-- `Err(self.fail(error))`. -/
def fail {α : Type} (error : Error) : Dec α := do
  modify fun s => { s with wireError := some error }
  throw (.custom "rustbinary wire error")

/-- `.map_err(|error| self.fail(error))?`. -/
def orFail {α : Type} (m : Act Decoder Error α) : Dec α := onErr m fail

/-- `Err(self.invalid_type(expected, &found))`. -/
def invalidType {α : Type} (expected : String) (found : Token) : Dec α := do
  let s ← get
  throw (.invalidType (expectation s.expecting expected) found.name)

def take (len : ℕ) : Act Decoder Error (List UInt8) := do
  let s ← get
  let stop ← okOr (checkedAdd s.cursor len) .unexpectedEnd
  atMost s.config.limit stop .sizeLimit
  let bytes ← okOr (slice s.input.bytes s.cursor stop) .unexpectedEnd
  modify fun s => { s with cursor := stop }
  pure bytes

/-- `self.take(1)?[0]`. -/
def byte : Dec UInt8 := do
  match ← orFail (take 1) with
  | first :: _ => pure first
  | [] => panic

/-- The next byte; unlike `take` it is not held against the byte limit. -/
def peekByte : Act Decoder Error UInt8 := do
  let s ← get
  okOr s.input.bytes[s.cursor]? .unexpectedEnd

/-- `self.cursor += 1`. -/
def bumpCursor : Dec Unit := do
  let s ← get
  if s.cursor + 1 ≤ u64Max then modify fun s => { s with cursor := s.cursor + 1 } else panic

/-! ## Numbers -/

section Numbers

variable [Target]

/-- The number that `bytes` spells in the byte order of the configuration
(`from_le_bytes` or `from_be_bytes`). -/
def fromBytes (config : Config) (bytes : List UInt8) : ℕ :=
  if config.endian.isLittle then leNat bytes else beNat bytes

/-- `self.fixed()` and the conversion of the bytes: `literal_u16` and its siblings,
`read_f32` and `read_f64`. -/
def literal (width : ℕ) : Dec ℕ := do
  let s ← get
  let bytes ← orFail (take width)
  pure (fromBytes s.config bytes)

/-- A value of a varint that is not little-endian, from its payload. -/
def canonical (width minimum : ℕ) : Dec ℕ := do
  let value ← literal width
  if value < minimum then fail .nonCanonicalVarint else pure value

def varint : Dec ℕ := do
  let marker ← byte
  let s ← get
  if s.config.endian.isLittle then
    if marker.toNat ≤ 250 then pure marker.toNat
    else do
      let payloadLen ←
        (if marker = markerU16 then pure 2
        else if marker = markerU32 then pure 4
        else if marker = markerU64 then pure 8
        else if marker = markerU128 then pure 16
        else fail (.invalidVarintMarker marker))
      let bytes ← orFail (take payloadLen)
      match decodeVarintLe marker bytes with
      | some value => pure value
      | none => fail .nonCanonicalVarint
  else if marker.toNat ≤ 250 then pure marker.toNat
  else if marker = markerU16 then canonical 2 251
  else if marker = markerU32 then canonical 4 (2 ^ 16)
  else if marker = markerU64 then canonical 8 (2 ^ 32)
  else if marker = markerU128 then canonical 16 (2 ^ 64)
  else fail (.invalidVarintMarker marker)

def unsignedName : ℕ → String
  | 2 => "u16"
  | 4 => "u32"
  | 8 => "u64"
  | 16 => "u128"
  | _ => "unsigned integer"

def signedName : ℕ → String
  | 2 => "i16"
  | 4 => "i32"
  | 8 => "i64"
  | 16 => "i128"
  | _ => "signed integer"

/-- The 128-bit word that holds `source`, whose other bytes are `fill`. -/
def widen (config : Config) (fill : UInt8) (source : List UInt8) : ℕ :=
  let padding := List.replicate (16 - source.length) fill
  if config.endian.isLittle then leNat (source ++ padding) else beNat (padding ++ source)

def unsigned (fixedBytes targetMax : ℕ) : Dec ℕ := do
  let s ← get
  let value ←
    (if s.config.integers = .variable ∧ 1 < fixedBytes then varint
    else do
      let source ← orFail (take fixedBytes)
      pure (widen s.config 0 source))
  if targetMax < value then fail (.integerOverflow (unsignedName fixedBytes)) else pure value

/-- The byte that extends the sign of `source`. -/
def signFill (config : Config) (source : List UInt8) : UInt8 :=
  match if config.endian.isLittle then source.getLast? else source.head? with
  | some top => if 0x80 ≤ top.toNat then 0xff else 0
  | none => 0

def signed (fixedBytes : ℕ) (min max : ℤ) : Dec ℤ := do
  let s ← get
  let value ←
    (if s.config.integers = .variable ∧ 1 < fixedBytes then do
      let encoded ← varint
      pure (zigzagDecode encoded)
    else do
      let source ← orFail (take fixedBytes)
      pure (asI128 (widen s.config (signFill s.config source) source)))
  if value < min ∨ max < value then fail (.integerOverflow (signedName fixedBytes))
  else pure value

def readU64 : Dec ℕ := unsigned 8 (2 ^ 64 - 1)

def readU128 : Dec ℕ := unsigned 16 (2 ^ 128 - 1)

def readI64 : Dec ℤ := signed 8 (-2 ^ 63) (2 ^ 63 - 1)

def readI128 : Dec ℤ := signed 16 (-2 ^ 127) (2 ^ 127 - 1)

/-- A length payload; on a 64-bit target every `u64` is a `usize`. -/
def length : Dec ℕ := unsigned 8 (2 ^ 64 - 1)

def readString : Dec String := do
  let len ← length
  let bytes ← orFail (take len)
  match fromUtf8 bytes with
  | some text => pure text
  | none => fail .invalidUtf8

end Numbers

/-! ## Tokens and containers -/

section Tokens

variable [Target]

/-- Reads the next full token: a tag and its payload. -/
def readToken : Dec Token := do
  let tag ← byte
  if tag = tagNull then pure .null
  else if tag = tagFalse then pure (.bool false)
  else if tag = tagTrue then pure (.bool true)
  else if tag = tagU64 then (fun value => .number (.u64 value)) <$> readU64
  else if tag = tagU128 then (fun value => .number (.u128 value)) <$> readU128
  else if tag = tagI64 then (fun value => .number (.i64 value)) <$> readI64
  else if tag = tagI128 then (fun value => .number (.i128 value)) <$> readI128
  else if tag = tagF64 then (fun bits => .number (.f64 bits)) <$> literal 8
  else if tag = tagF32 then (fun bits => .number (.f64 (f32ToF64 bits))) <$> literal 4
  else if tag = tagString then .str <$> readString
  else if tag = tagArray then pure .beginArray
  else if tag = tagObject then pure .beginObject
  else if tag = tagEnd then fail (.custom "unexpected end-of-container terminator")
  else fail (.custom "invalid value tag")

/-- Returns the next token without consuming it. -/
def peekTokenInner : Dec Token := do
  let s ← get
  match s.lookahead with
  | some token => pure token
  | none => do
      let token ← readToken
      modify fun s => { s with lookahead := some token }
      pure token

/-- Consumes and returns the next token, honoring any pending lookahead. -/
def takeToken : Dec Token := do
  let s ← get
  match s.lookahead with
  | some token => do
      modify fun s => { s with lookahead := none }
      pure token
  | none => readToken

/-- Whether the next byte is the container terminator (not consumed). -/
def peekEnd : Dec Bool := do
  let s ← get
  if s.lookahead.isSome then pure false
  else do
    let next ← orFail peekByte
    pure (next == tagEnd)

def pushFrame : Dec Unit := do
  let s ← get
  if s.config.depthLimit ≤ s.depth then fail (.custom "decoder nesting depth limit exceeded")
  else modify fun s => { s with depth := s.depth + 1 }

/-- The last step of `exit_container`: one level up, with the counter of the level reset. -/
def popFrame : Dec Unit := do
  let s ← get
  match s.depth with
  | 0 => panic
  | d + 1 =>
      if h : d < maxDepth then
        modify fun s => { s with depth := d, counts := s.counts.set d 0 h }
      else panic

def exitContainer : Dec Unit := do
  let s ← get
  if s.depth = 0 then fail (.custom "container end without matching start")
  else do
    let terminator ← byte
    if terminator ≠ tagEnd then fail (.custom "container end without terminator")
    else popFrame

/-- The first half of `container_sep`: one separator is counted, within the limit. -/
def countSep : Dec Unit := do
  let s ← get
  match s.depth with
  | 0 => fail (.custom "container separator outside any container")
  | index + 1 =>
      if h : index < maxDepth then do
        let count ← orFail (okOr (checkedAdd s.counts[index] 1) (.collectionLimit u64Max))
        orFail (atMost s.config.collectionLimit count .collectionLimit)
        modify fun s => { s with counts := s.counts.set index count h }
      else panic

/-- Whether another entry follows; a pending token is one. -/
def containerSep : Dec Bool := do
  countSep
  let s ← get
  if s.lookahead.isSome then pure true
  else do
    let next ← orFail peekByte
    pure (next != tagEnd)

/-- One round of the loop of `skip_value`, inside `nested` open containers. -/
def skipRound (nested : ℕ) : Dec (ℕ ⊕ Unit) := do
  let next ← orFail peekByte
  if next = tagEnd then do
    bumpCursor
    match nested with
    | 0 => panic
    | 1 => pure (.inr ())
    | nested + 2 => pure (.inl (nested + 1))
  else
    match ← readToken with
    | .beginArray | .beginObject =>
        if nested + 1 ≤ u64Max then pure (.inl (nested + 1)) else panic
    | _ => pure (.inl nested)

/-- Skips one complete value.  Every round of the loop takes at least one byte of input. -/
def skipValueInner : Dec Unit := do
  match ← takeToken with
  | .beginArray | .beginObject => do
      let s ← get
      iterate skipRound (s.input.bytes.length + 1) 1
  | _ => pure ()

/-! ## The methods of `FormatDecoder` -/

/-- Takes the next token and reads it with `pick`; a token of another shape is an
`invalid_type` error that names `expected`. -/
def expectToken {α : Type} (expected : String) (pick : Token → Option α) : Dec α := do
  let token ← takeToken
  match pick token with
  | some a => pure a
  | none => invalidType expected token

def beginObject : Dec Unit := do
  expectToken "an object" fun | .beginObject => some () | _ => none
  pushFrame

def beginArray : Dec Unit := do
  expectToken "an array" fun | .beginArray => some () | _ => none
  pushFrame

def objectKey : Dec (Option String) := do
  let finished ← peekEnd
  if finished then pure none
  else some <$> expectToken "an object key string" fun | .str key => some key | _ => none

def arrayHasMore : Dec Bool := (fun finished => !finished) <$> peekEnd

def unit : Dec Unit :=
  expectToken "null" fun | .null => some () | _ => none

def bool : Dec Bool :=
  expectToken "a boolean" fun | .bool value => some value | _ => none

def number : Dec Number :=
  expectToken "a number" fun | .number value => some value | _ => none

def string : Dec String :=
  expectToken "a string" fun | .str text => some text | _ => none

def char : Dec Char := do
  let text ← expectToken "a character" fun | .str text => some text | _ => none
  match singleChar text with
  | some c => pure c
  | none => fail .invalidChar

def save : Dec Mark := do
  let s ← get
  pure ⟨s.cursor, s.depth % 2 ^ 32⟩

def restore (mark : Mark) : Dec Unit :=
  modify fun s =>
    { s with
      cursor := mark.pos
      depth := min mark.depth maxDepth
      counts := clearFrom (min mark.depth maxDepth) s.counts
      lookahead := none
      wireError := none }

def setExpecting (text : String) : Dec (Option String) := do
  let s ← get
  modify fun s => { s with expecting := some text }
  pure s.expecting

end Tokens

end Decoder

variable [Target]

open Decoder in
/-- The method behind a call, with its answer. -/
def method : Call → Dec Answer
  | .beginObject => (fun _ => .unit) <$> beginObject
  | .endObject => (fun _ => .unit) <$> exitContainer
  | .objectKey => .key <$> objectKey
  | .objectEntrySep => .bool <$> containerSep
  | .beginArray => (fun _ => .unit) <$> beginArray
  | .endArray => (fun _ => .unit) <$> exitContainer
  | .arrayHasMore => .bool <$> arrayHasMore
  | .arrayEntrySep => .bool <$> containerSep
  | .unit => (fun _ => .unit) <$> Decoder.unit
  | .bool => .bool <$> Decoder.bool
  | .number => .number <$> Decoder.number
  | .string => .string <$> Decoder.string
  | .char => .char <$> Decoder.char
  | .skipValue => (fun _ => .unit) <$> skipValueInner
  | .peekToken => .token <$> peekTokenInner
  | .nextToken => .token <$> takeToken
  | .save => .mark <$> Decoder.save
  | .restore mark => (fun _ => .unit) <$> Decoder.restore mark
  | .setExpecting text => .expecting <$> Decoder.setExpecting text
  | .isHumanReadable => pure (.bool false)

/-- A call made on a decoder: its outcome and the decoder after it. -/
def step (call : Call) (s : Decoder) : Outcome NextjsonError Answer × Decoder :=
  method call s

end RustBinary.Native
