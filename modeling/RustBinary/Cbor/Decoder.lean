import RustBinary.Lib.Run
import RustBinary.Core.Nextjson

/-!
# The CBOR decoder

The streaming RFC 8949 decoder, method by method.  A decoder is a cursor into the input
with a stack of open containers; definite containers carry the number of elements that are
still to be read, and `counts` holds the number of separators passed at each depth.  One
token of lookahead can be pending: it has been read, so the cursor and the stack are
already past it.

The only method taken from outside the crate is the default `u8` of `FormatDecoder`, which
`bytes` calls: it reads one number and narrows it, and the narrowing is a parameter.
-/

namespace RustBinary.Cbor

open Lib Lib.Act

inductive ContainerKind where
  | array
  | object
deriving DecidableEq, Repr

structure Frame where
  kind : ContainerKind
  /-- `some remaining` for definite containers, `none` for indefinite ones. -/
  definite : Option ℕ
deriving DecidableEq, Repr

inductive HeadArg where
  | value (n : ℕ)
  | float16
  | float32
  | float64
  | indefinite
deriving DecidableEq, Repr

structure CborDecoder where
  input : Input
  cursor : ℕ
  config : Config
  depth : ℕ
  counts : Vector ℕ maxDepth
  frames : List Frame
  lookahead : Option Token
  wireError : Option Error
  expecting : Option String

/-- An action of the decoder behind the `FormatDecoder` boundary. -/
abbrev Dec (α : Type) : Type := Act CborDecoder NextjsonError α

/-- `HeadArg::value`: an `unreachable!` for an argument that is not a value. -/
def HeadArg.getValue : HeadArg → Dec ℕ
  | .value n => pure n
  | _ => panic

namespace CborDecoder

def new (input : Input) (config : Config) : CborDecoder where
  input := input
  cursor := 0
  config := config
  depth := 0
  counts := Vector.replicate maxDepth 0
  frames := []
  lookahead := none
  wireError := none
  expecting := none

/-! ## Reading bytes -/

/-- `Err(self.fail(error))`. -/
def fail {α : Type} (error : Error) : Dec α := do
  modify fun s => { s with wireError := some error }
  throw (.custom "rustbinary cbor wire error")

/-- `.map_err(|error| self.fail(error))?`. -/
def orFail {α : Type} (m : Act CborDecoder Error α) : Dec α := onErr m fail

/-- `Err(self.invalid_type(expected, &found))`. -/
def invalidType {α : Type} (expected : String) (found : Token) : Dec α := do
  let s ← get
  throw (.invalidType (expectation s.expecting expected) found.name)

def take (len : ℕ) : Act CborDecoder Error (List UInt8) := do
  let s ← get
  let stop ← okOr (checkedAdd s.cursor len) .unexpectedEnd
  atMost s.config.limit stop .sizeLimit
  let bytes ← okOr (slice s.input.bytes s.cursor stop) .unexpectedEnd
  modify fun s => { s with cursor := stop }
  pure bytes

def peekByte : Act CborDecoder Error UInt8 := do
  let s ← get
  let byte ← okOr s.input.bytes[s.cursor]? .unexpectedEnd
  atMost s.config.limit (min (s.cursor + 1) u64Max) .sizeLimit
  pure byte

/-- `self.cursor += 1`. -/
def bumpCursor : Dec Unit := do
  let s ← get
  if s.cursor + 1 ≤ u64Max then modify fun s => { s with cursor := s.cursor + 1 } else panic

/-- `take(len)?.try_into().expect(..)`: exactly `len` bytes. -/
def takeExact (len : ℕ) : Dec (List UInt8) := do
  let bytes ← orFail (take len)
  if bytes.length = len then pure bytes else panic

/-- The argument that `take(len)` spells, most significant byte first. -/
def takeValue (len : ℕ) : Dec HeadArg := do
  let bytes ← takeExact len
  pure (.value (beNat bytes))

/-- The argument of a head, from its major type and its additional information. -/
def readArgument (major ai : ℕ) : Dec HeadArg :=
  if major = 7 then
    if ai ≤ 23 then pure (.value ai)
    else if ai = 24 then pure (.value 24)
    else if ai = 25 then pure .float16
    else if ai = 26 then pure .float32
    else if ai = 27 then pure .float64
    else if ai ≤ 30 then fail (.custom "reserved CBOR additional information value")
    else if ai = 31 then pure .indefinite
    else panic
  else
    if ai ≤ 23 then pure (.value ai)
    else if ai = 24 then takeValue 1
    else if ai = 25 then takeValue 2
    else if ai = 26 then takeValue 4
    else if ai = 27 then takeValue 8
    else if ai ≤ 30 then fail (.custom "reserved CBOR additional information value")
    else if ai = 31 then pure .indefinite
    else panic

/-- Reads one head: the major type and the argument. -/
def readHead : Dec (ℕ × HeadArg) := do
  let initial ← takeExact 1
  let argument ← readArgument (beNat initial / 2 ^ 5) (beNat initial % 2 ^ 5)
  pure (beNat initial / 2 ^ 5, argument)

/-! ## Containers and counters -/

/-- Decrements the definite element counter of the current container. -/
def decRemaining : Dec Unit := do
  let s ← get
  match s.frames.getLast? with
  | some ⟨kind, some remaining⟩ =>
      match remaining with
      | 0 => fail (.custom "too many container elements")
      | next + 1 =>
          modify fun s => { s with frames := s.frames.dropLast ++ [⟨kind, some next⟩] }
  | _ => pure ()

/-- The collection limit, checked against the count of a definite container. -/
def limitDefinite : Option ℕ → Dec Unit
  | some count => do
      let s ← get
      orFail (atMost s.config.collectionLimit count .collectionLimit)
  | none => pure ()

def enterContainer (kind : ContainerKind) (definite : Option ℕ) : Dec Unit := do
  let s ← get
  if maxDepth ≤ s.depth then fail (.custom "decoder nesting depth limit exceeded")
  else do
    limitDefinite definite
    modify fun s => { s with frames := s.frames ++ [⟨kind, definite⟩], depth := s.depth + 1 }

def popFrame (expected : ContainerKind) : Dec Unit := do
  let s ← get
  match s.frames.getLast? with
  | none => fail (.custom "container end without matching start")
  | some frame =>
      if frame.kind ≠ expected then fail (.custom "container end does not match its start")
      else
        match s.depth with
        | 0 => panic
        | d + 1 =>
            if h : d < maxDepth then
              modify fun s =>
                { s with frames := s.frames.dropLast, depth := d, counts := s.counts.set d 0 h }
            else panic

def countElement : Dec Unit := do
  let s ← get
  match s.depth with
  | 0 => fail (.custom "separator outside any container")
  | index + 1 =>
      if h : index < maxDepth then do
        let count ← orFail (okOr (checkedAdd s.counts[index] 1) (.collectionLimit u64Max))
        orFail (atMost s.config.collectionLimit count .collectionLimit)
        modify fun s => { s with counts := s.counts.set index count h }
      else panic

/-- Whether the container of `frame` has no elements left: by its counter when it is
definite, by the break byte when it is not. -/
def atEnd (frame : Frame) : Dec Bool :=
  match frame.definite with
  | some remaining => pure (remaining == 0)
  | none => do
      let byte ← orFail peekByte
      pure (byte == 0xff)

/-- Whether the current container still has elements (does not count). -/
def hasMore : Dec Bool := do
  let s ← get
  if s.lookahead.isSome then pure true
  else
    match s.frames.getLast? with
    | none => fail (.custom "separator outside any container")
    | some frame => do
        let finished ← atEnd frame
        pure (!finished)

/-! ## Tokens -/

/-- One chunk of an indefinite text (`major = 3`) or byte (`major = 2`) string, from its
head. -/
def takeChunk (major : ℕ) (wrongChunk invalidLength : String) (head : ℕ × HeadArg) :
    Dec (List UInt8) :=
  if head.1 ≠ major then fail (.custom wrongChunk)
  else
    match head.2 with
    | .value len => orFail (take len)
    | _ => fail (.custom invalidLength)

/-- One round of the loop over the chunks of an indefinite string; `out` holds the bytes of
the chunks read so far. -/
def chunkRound (major : ℕ) (wrongChunk invalidLength : String) (out : List UInt8) :
    Dec (List UInt8 ⊕ List UInt8) := do
  let byte ← orFail peekByte
  if byte = 0xff then do
    bumpCursor
    pure (.inr out)
  else do
    let head ← readHead
    let chunk ← takeChunk major wrongChunk invalidLength head
    pure (.inl (out ++ chunk))

/-- The chunks of an indefinite string; every chunk takes at least one byte of input. -/
def readChunks (major : ℕ) (wrongChunk invalidLength : String) : Dec (List UInt8) := do
  let s ← get
  iterate (chunkRound major wrongChunk invalidLength) (s.input.bytes.length + 1) []

/-- Reads a text string whose head has already been consumed. -/
def readText : HeadArg → Dec Token
  | .value len => do
      let bytes ← orFail (take len)
      match fromUtf8 bytes with
      | some text => pure (.str text)
      | none => fail (.custom "CBOR text string is not valid UTF-8")
  | .indefinite => do
      let out ← readChunks 3 "indefinite text string contains a non-text chunk"
        "invalid text string length"
      match fromUtf8 out with
      | some text => pure (.str text)
      | none => fail (.custom "CBOR text string is not valid UTF-8")
  | _ => fail (.custom "invalid text string length")

/-- `-1 - value` in a signed integer of `bits` bits. -/
def minusOneSub (bits : ℕ) (value : ℤ) : Dec ℤ :=
  if -2 ^ (bits - 1) ≤ -1 - value ∧ -1 - value < 2 ^ (bits - 1) then pure (-1 - value)
  else panic

/-- Reads a bignum (tag 2 or 3) whose tag head has already been consumed. -/
def readBignum (negative : Bool) : Dec Token := do
  let (major, argument) ← readHead
  if major ≠ 2 then fail (.custom "bignum payload must be a byte string")
  else
    match argument with
    | .value len => do
        let bytes ← orFail (take len)
        if 16 < bytes.length then fail (.custom "bignum wider than 128 bits is not supported")
        else do
          let value := beNat (List.replicate (16 - bytes.length) 0 ++ bytes)
          if negative then do
            let value ← minusOneSub 128 (asI128 value)
            pure (.number (.i128 value))
          else pure (.number (.u128 value))
    | .indefinite => fail (.custom "indefinite bignum payload is not supported")
    | _ => fail (.custom "bignum payload must be a byte string")

/-- The length of a container from the argument of its head. -/
def containerLength (argument : HeadArg) (invalid : String) : Dec (Option ℕ) :=
  match argument with
  | .value count => pure (some count)
  | .indefinite => pure none
  | _ => fail (.custom invalid)

/-- The values of major type 7: simple values, floats and the break. -/
def readSimple (argument : HeadArg) : Dec Token :=
  match argument with
  | .value 20 => do
      decRemaining
      pure (.bool false)
  | .value 21 => do
      decRemaining
      pure (.bool true)
  | .value 22 => do
      decRemaining
      pure .null
  | .value 23 => fail (.custom "undefined (0xf7) is outside the value model")
  | .value 24 => do
      let _ ← orFail (take 1)
      fail (.custom "unsupported CBOR simple value")
  | .float16 => do
      decRemaining
      let bytes ← takeExact 2
      pure (.number (.f64 (halfToF64 (beNat bytes))))
  | .float32 => do
      decRemaining
      let bytes ← takeExact 4
      pure (.number (.f64 (f32ToF64 (beNat bytes))))
  | .float64 => do
      decRemaining
      let bytes ← takeExact 8
      pure (.number (.f64 (beNat bytes)))
  | .value _ => fail (.custom "unsupported CBOR simple value")
  | .indefinite => do
      let s ← get
      match s.frames.getLast? with
      | none => fail (.custom "indefinite break outside any container")
      | some frame =>
          match frame.kind with
          | .array => pure .endArray
          | .object => pure .endObject

/-- What follows a head in the loop of `read_token`: a head that annotates the value that
follows it asks for another round. -/
def tokenOf (major : ℕ) (argument : HeadArg) : Dec (Unit ⊕ Token) :=
  match major with
  | 0 => do
      decRemaining
      let value ← argument.getValue
      pure (.inr (.number (.u64 value)))
  | 1 => do
      decRemaining
      let negative ← argument.getValue
      if negative ≤ 2 ^ 63 - 1 then do
        let value ← minusOneSub 64 negative
        pure (.inr (.number (.i64 value)))
      else do
        let value ← minusOneSub 128 negative
        pure (.inr (.number (.i128 value)))
  | 2 => fail (.custom
      "byte string (major type 2) is outside the value model; use FormatDecoder::bytes")
  | 3 => do
      let token ← readText argument
      decRemaining
      pure (.inr token)
  | 4 => do
      decRemaining
      let definite ← containerLength argument "invalid array length"
      enterContainer .array definite
      pure (.inr .beginArray)
  | 5 => do
      decRemaining
      let definite ← containerLength argument "invalid object length"
      enterContainer .object definite
      pure (.inr .beginObject)
  | 6 => do
      let tag ← argument.getValue
      if tag = 2 then do
        let token ← readBignum false
        decRemaining
        pure (.inr token)
      else if tag = 3 then do
        let token ← readBignum true
        decRemaining
        pure (.inr token)
      else pure (.inl ())
  | 7 => do
      let token ← readSimple argument
      pure (.inr token)
  | _ => panic

/-- One round of the loop of `read_token`. -/
def tokenRound (_ : Unit) : Dec (Unit ⊕ Token) := do
  let head ← readHead
  tokenOf head.1 head.2

/-- Reads the next token, consuming it.  Every round takes at least one byte of input. -/
def readToken : Dec Token := do
  let s ← get
  iterate tokenRound (s.input.bytes.length + 1) ()

/-- Reads the next token without consuming it (honoring any pending lookahead). -/
def peekTokenInner : Dec Token := do
  let s ← get
  match s.lookahead with
  | some token => pure token
  | none => do
      let token ← readToken
      modify fun s => { s with lookahead := some token }
      pure token

/-- Consumes and returns the next token. -/
def takeToken : Dec Token := do
  let s ← get
  match s.lookahead with
  | some token => do
      modify fun s => { s with lookahead := none }
      pure token
  | none => readToken

/-- Consumes the break byte of an indefinite container. -/
def passBreak (frame : Frame) : Dec Unit :=
  match frame.definite with
  | some _ => pure ()
  | none => bumpCursor

/-- One round of the loop of `skip_value`, which runs while the decoder is deeper than
`saved`. -/
def skipRound (saved : ℕ) (_ : Unit) : Dec (Unit ⊕ Unit) := do
  let s ← get
  if saved < s.depth then
    match s.frames.getLast? with
    | none => fail (.custom "unbalanced container in skip")
    | some frame => do
        let finished ← atEnd frame
        if finished then do
          passBreak frame
          popFrame frame.kind
          pure (.inl ())
        else do
          let _ ← takeToken
          pure (.inl ())
  else pure (.inr ())

/-- Skips one complete value.  A round either takes at least one byte of input, or closes
one of the at most `maxDepth` open containers. -/
def skipValueInner : Dec Unit := do
  let saved := (← get).depth
  let _ ← takeToken
  let s ← get
  iterate (skipRound saved) ((maxDepth + 1) * (s.input.bytes.length + 1)) ()

/-! ## The methods of `FormatDecoder` -/

/-- The end of the container of `frame`: the break byte, when it is indefinite. -/
def expectBreak (frame : Frame) : Dec Unit :=
  match frame.definite with
  | some _ => pure ()
  | none => do
      let byte ← orFail peekByte
      if byte ≠ 0xff then fail (.custom "container ended with unread elements") else bumpCursor

/-- The first half of `end_container`: the pending token, or the break byte. -/
def passEnd : Dec Unit := do
  let s ← get
  match s.lookahead with
  | some token => do
      modify fun s => { s with lookahead := none }
      match token with
      | .endArray => pure ()
      | .endObject => pure ()
      | .beginArray => pure ()
      | .beginObject => pure ()
      | _ => fail (.custom "container ended with unread elements")
  | none =>
      match s.frames.getLast? with
      | none => fail (.custom "container end without matching start")
      | some frame => expectBreak frame

/-- The second half of `end_container`: the container must have no elements left. -/
def closeFrame (kind : ContainerKind) : Dec Unit := do
  let s ← get
  match s.frames.getLast? with
  | none => fail (.custom "container end without matching start")
  | some frame =>
      if frame.definite = none ∨ frame.definite = some 0 then popFrame kind
      else fail (.custom "container ended with unread elements")

/-- Shared container-close logic for `end_array` / `end_object`. -/
def endContainer (kind : ContainerKind) : Dec Unit := do
  passEnd
  closeFrame kind

/-- Takes the next token and reads it with `pick`; a token of another shape is an
`invalid_type` error that names `expected`. -/
def expectToken {α : Type} (expected : String) (pick : Token → Option α) : Dec α := do
  let token ← takeToken
  match pick token with
  | some a => pure a
  | none => invalidType expected token

def beginObject : Dec Unit :=
  expectToken "an object" fun | .beginObject => some () | _ => none

def beginArray : Dec Unit :=
  expectToken "an array" fun | .beginArray => some () | _ => none

def unit : Dec Unit :=
  expectToken "null" fun | .null => some () | _ => none

def bool : Dec Bool :=
  expectToken "a boolean" fun | .bool value => some value | _ => none

def number : Dec Number :=
  expectToken "a number" fun | .number value => some value | _ => none

def string : Dec String :=
  expectToken "a string" fun | .str text => some text | _ => none

def char : Dec Char := do
  let text ← expectToken "a character" fun | .str text => some text | _ => none
  match singleChar text with
  | some c => pure c
  | none => fail .invalidChar

def objectKey : Dec (Option String) := do
  let s ← get
  match s.lookahead with
  | some token => do
      modify fun s => { s with lookahead := none }
      match token with
      | .str key => pure (some key)
      | .endObject => pure none
      | other => invalidType "an object key string" other
  | none =>
      match s.frames.getLast? with
      | none => fail (.custom "object key outside any object")
      | some frame =>
          if frame.kind ≠ .object then fail (.custom "object key outside an object container")
          else do
            let finished ← atEnd frame
            if finished then pure none
            else do
              let (major, argument) ← readHead
              if major ≠ 3 then
                invalidType "an object key string"
                  (if major = 0 ∨ major = 1 ∨ major = 7 then .number (.u64 0)
                    else if major = 4 then .beginArray
                    else if major = 5 then .beginObject
                    else .null)
              else do
                match ← readText argument with
                | .str key => pure (some key)
                | _ => panic

/-- `array_entry_sep` and `object_entry_sep`. -/
def entrySep : Dec Bool := do
  countElement
  hasMore

/-- `self.lookahead.is_none() && self.peek_byte()? == 0xf6`. -/
def atNull : Dec Bool := do
  let s ← get
  match s.lookahead with
  | some _ => pure false
  | none => do
      let byte ← orFail peekByte
      pure (byte == 0xf6)

def optionTag : Dec OptionTag := do
  let null ← atNull
  if null then do
    bumpCursor
    pure .none
  else do
    let s ← get
    if s.lookahead = some .null then do
      modify fun s => { s with lookahead := none }
      pure .none
    else pure .some

def save : Dec Mark := do
  let s ← get
  pure ⟨s.cursor, s.depth % 2 ^ 32⟩

def restore (mark : Mark) : Dec Unit :=
  modify fun s =>
    { s with
      cursor := mark.pos
      depth := min mark.depth maxDepth
      frames := s.frames.take (min mark.depth maxDepth)
      counts := clearFrom (min mark.depth maxDepth) s.counts
      lookahead := none
      wireError := none }

def setExpecting (text : String) : Dec (Option String) := do
  let s ← get
  modify fun s => { s with expecting := some text }
  pure s.expecting

/-- Reads a byte string whose head has already been consumed. -/
def readBytes : HeadArg → Dec (List UInt8)
  | .value len => orFail (take len)
  | .indefinite =>
      readChunks 2 "indefinite byte string contains a non-byte chunk" "invalid byte string length"
  | _ => panic

section Bytes

variable (narrow : Number → Option UInt8)

/-- `FormatDecoder::u8`, a default method: one number, narrowed. -/
def u8 : Dec UInt8 := do
  let value ← number
  match narrow value with
  | some byte => pure byte
  | none => throw (.narrowing value)

/-- One round of the loop of `bytes` over an array of numbers. -/
def bytesRound (out : List UInt8) : Dec (List UInt8 ⊕ List UInt8) := do
  let more ← hasMore
  if more then do
    let byte ← u8 narrow
    let another ← entrySep
    if another then pure (.inl (out ++ [byte])) else pure (.inr (out ++ [byte]))
  else pure (.inr out)

def bytes : Dec (List UInt8) := do
  let byte ← orFail peekByte
  let major := byte.toNat / 2 ^ 5
  if major = 2 then do
    let (_, argument) ← readHead
    readBytes argument
  else if major = 3 then do
    let text ← string
    pure (toUtf8 text)
  else if major = 4 then do
    beginArray
    let s ← get
    let out ← iterate (bytesRound narrow) (s.input.bytes.length + 1) []
    endContainer .array
    pure out
  else fail (.custom "expected a byte string or an array of bytes")

end Bytes

end CborDecoder

/-- The calls a `CborDecoder` answers: the required methods and the two default methods
that it overrides. -/
inductive CborCall where
  | required (call : Call)
  | bytes
  | optionTag
deriving DecidableEq, Repr

open CborDecoder in
/-- The method behind a call, with its answer. -/
def requiredMethod : Call → Dec Answer
  | .beginObject => (fun _ => .unit) <$> beginObject
  | .endObject => (fun _ => .unit) <$> endContainer .object
  | .objectKey => .key <$> objectKey
  | .objectEntrySep => .bool <$> entrySep
  | .beginArray => (fun _ => .unit) <$> beginArray
  | .endArray => (fun _ => .unit) <$> endContainer .array
  | .arrayHasMore => .bool <$> hasMore
  | .arrayEntrySep => .bool <$> entrySep
  | .unit => (fun _ => .unit) <$> CborDecoder.unit
  | .bool => .bool <$> CborDecoder.bool
  | .number => .number <$> CborDecoder.number
  | .string => .string <$> CborDecoder.string
  | .char => .char <$> CborDecoder.char
  | .skipValue => (fun _ => .unit) <$> skipValueInner
  | .peekToken => .token <$> peekTokenInner
  | .nextToken => .token <$> takeToken
  | .save => .mark <$> CborDecoder.save
  | .restore mark => (fun _ => .unit) <$> CborDecoder.restore mark
  | .setExpecting text => .expecting <$> CborDecoder.setExpecting text
  | .isHumanReadable => pure (.bool false)

/-- The method behind a call of a `CborDecoder`. -/
def method (narrow : Number → Option UInt8) : CborCall → Dec Answer
  | .required call => requiredMethod call
  | .bytes => .bytes <$> CborDecoder.bytes narrow
  | .optionTag => .optionTag <$> CborDecoder.optionTag

/-- A call made on a decoder: its outcome and the decoder after it. -/
def step (narrow : Number → Option UInt8) (call : CborCall) (s : CborDecoder) :
    Outcome NextjsonError Answer × CborDecoder :=
  method narrow call s

end RustBinary.Cbor
