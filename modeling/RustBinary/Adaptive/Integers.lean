import RustBinary.Adaptive.Prefix
import RustBinary.Core.Cursor
import RustBinary.Core.Varint

/-!
# The adaptive codec of integer collections

A collection of `i64` is written as independent varints, as a first value and differences, or as
values with run lengths; the mode says how much the encoder looks at before it chooses.
-/

namespace RustBinary.Adaptive

open Lib Lib.Act Cursor

inductive AdaptiveMode where
  | off
  | heuristic
  | exact
deriving DecidableEq, Repr

inductive CollectionStrategy where
  | raw
  | delta
  | runLength
deriving DecidableEq, Repr

/-- `RAW_INTEGERS`, `DELTA_INTEGERS` and `RLE_INTEGERS`. -/
def CollectionStrategy.tag : CollectionStrategy → UInt8
  | raw => 0
  | delta => 1
  | runLength => 2

/-- The strategy of a tag. -/
def strategyOf (tag : UInt8) : Option CollectionStrategy :=
  if tag = 0 then some .raw else if tag = 1 then some .delta
  else if tag = 2 then some .runLength else none

def heuristicSample : ℕ := 64

structure AdaptiveConfig where
  base : Config
  mode : AdaptiveMode

/-! ## Words -/

def zigzagI64 (value : Int64) : ℕ :=
  (value.toBitVec <<< 1 ^^^ value.toBitVec.sshiftRight 63).toNat

def zigzagI128 (value : ℤ) : ℕ := zigzagEncode value

def decodeI128 (value : ℕ) : ℤ := zigzagDecode value

/-- `i64::try_from`, on an `i128`. -/
def toI64 (value : ℤ) : Option Int64 :=
  if -2 ^ 63 ≤ value ∧ value < 2 ^ 63 then some (Int64.ofInt value) else none

def decodeI64 (value : ℕ) : Outcome Error Int64 :=
  Outcome.okOr (toI64 (decodeI128 value)) (.integerOverflow "i64")

/-- `left - right` on `i128`, which aborts when it overflows. -/
def subI128 (left right : ℤ) : Outcome Error ℤ :=
  if FitsI128 (left - right) then .ok (left - right) else .panic

def varintSize (value : ℕ) : ℕ :=
  if value ≤ 250 then 1
  else if value ≤ 0xffff then 3
  else if value ≤ 0xffffffff then 5
  else if value ≤ 0xffffffffffffffff then 9
  else 17

/-- The difference of each value to the one before it. -/
def deltas : List Int64 → Outcome Error (List ℕ)
  | first :: second :: rest => do
      let delta ← subI128 second.toInt first.toInt
      let words ← deltas (second :: rest)
      pure (zigzagI128 delta :: words)
  | _ => pure []

/-- The maximal runs of equal values with their lengths; the length of the list is rounds
enough. -/
def runs : ℕ → List Int64 → List (Int64 × ℕ)
  | rounds + 1, value :: rest =>
      let run := (rest.takeWhile fun other => other = value).length
      (value, run + 1) :: runs rounds (rest.drop run)
  | _, _ => []

/-- The words that a strategy writes behind the length. -/
def words (strategy : CollectionStrategy) (values : List Int64) : Outcome Error (List ℕ) :=
  match strategy with
  | .raw => pure (values.map zigzagI64)
  | .delta =>
      match values with
      | [] => pure []
      | first :: _ => do
          let rest ← deltas values
          pure (zigzagI64 first :: rest)
  | .runLength =>
      pure ((runs values.length values).flatMap fun run => [zigzagI64 run.1, run.2])

/-! ## Encoding -/

def sizeOverflow : Error := .adaptive "encoded size overflow"

/-- The sizes of `words`, added to `size`. -/
def addSizes : ℕ → List ℕ → Option ℕ
  | size, [] => some size
  | size, word :: words => do
      let size ← checkedAdd size (varintSize word)
      addSizes size words

/-- `raw_size`, `delta_size` and `rle_size`. -/
def payloadSize (strategy : CollectionStrategy) (values : List Int64) : Outcome Error ℕ := do
  let words ← words strategy values
  Outcome.okOr (addSizes 0 words) sizeOverflow

def bestStrategy (raw delta rle : ℕ) : CollectionStrategy × ℕ :=
  if delta < raw ∧ delta ≤ rle then (.delta, delta)
  else if rle < raw then (.runLength, rle)
  else (.raw, raw)

/-- The comparison of all sizes. -/
def compareSizes (values : List Int64) : Outcome Error (CollectionStrategy × ℕ) := do
  let raw ← payloadSize .raw values
  let delta ← payloadSize .delta values
  let rle ← payloadSize .runLength values
  pure (bestStrategy raw delta rle)

/-- The strategy and the size of its payload. -/
def choose (values : List Int64) (mode : AdaptiveMode) : Outcome Error (CollectionStrategy × ℕ) :=
  match mode with
  | .off => do
      let size ← payloadSize .raw values
      pure (.raw, size)
  | .exact => compareSizes values
  | .heuristic =>
      if values.length ≤ heuristicSample then compareSizes values
      else do
        let (chosen, _) ← compareSizes (values.take heuristicSample)
        let size ← payloadSize chosen values
        pure (chosen, size)

/-- `collection_layout`: the strategy and the size of the frame. -/
def collectionLayout (values : List Int64) (mode : AdaptiveMode) :
    Outcome Error (CollectionStrategy × ℕ) := do
  let (strategy, payloadSize) ← choose values mode
  let required ← Outcome.okOr
    ((checkedAdd 1 (varintSize values.length)).bind fun size => checkedAdd size payloadSize)
    sizeOverflow
  pure (strategy, required)

/-- A slice that is being filled: what has been written and what is to come. -/
structure OutputCursor where
  written : List UInt8
  rest : List UInt8

namespace OutputCursor

def bytes (value : List UInt8) : Act OutputCursor Error Unit := do
  let cursor ← get
  if value.length ≤ cursor.rest.length then
    modify fun cursor => ⟨cursor.written ++ value, cursor.rest.drop value.length⟩
  else panic

def byte (value : UInt8) : Act OutputCursor Error Unit := bytes [value]

def varint (value : ℕ) : Act OutputCursor Error Unit := bytes (encodeVarintLe value)

def varints : List ℕ → Act OutputCursor Error Unit
  | [] => pure ()
  | word :: words => do
      varint word
      varints words

end OutputCursor

/-- Fill the first `required` bytes of a slice. -/
def fill (required : ℕ) (m : Act OutputCursor Error Unit) : Act (List UInt8) Error Unit :=
  fun output =>
    let (outcome, cursor) := m ⟨[], output.take required⟩
    (outcome, cursor.written ++ cursor.rest ++ output.drop required)

def AdaptiveConfig.enforceCollectionLimit (c : AdaptiveConfig) (length : ℕ) : Outcome Error Unit :=
  match c.base.collectionLimit with
  | some limit => if limit < length then .err (.collectionLimit limit) else .ok ()
  | none => .ok ()

/-- The layout of a frame that is within the limits. -/
def limitedLayout (c : AdaptiveConfig) (values : List Int64) :
    Outcome Error (CollectionStrategy × ℕ) := do
  c.enforceCollectionLimit values.length
  let (strategy, required) ← collectionLayout values c.mode
  c.base.enforceByteLimit required
  pure (strategy, required)

def encodedI64SliceSize (c : AdaptiveConfig) (values : List Int64) : Outcome Error ℕ := do
  let (_, required) ← limitedLayout c values
  pure required

/-- `encode_i64_slice_into_slice`, on the output. -/
def encodeI64SliceIntoSlice (c : AdaptiveConfig) (values : List Int64) :
    Act (List UInt8) Error ℕ := do
  let (strategy, required) ← call (limitedLayout c values)
  let output ← get
  if output.length < required then throw (.bufferTooSmall required output.length)
  else
    fill required do
      OutputCursor.byte strategy.tag
      OutputCursor.varint values.length
      let words ← call (words strategy values)
      OutputCursor.varints words
    pure required

/-- `encode_i64_slice`. -/
def encodeI64Slice (c : AdaptiveConfig) (values : List Int64) : Outcome Error (List UInt8) :=
  if c.mode = .off then do
    c.enforceCollectionLimit values.length
    withCapacity 1 (values.length + 1)
    let output := CollectionStrategy.raw.tag :: (encodeVarintLe values.length ++
      values.flatMap fun value => encodeVarintLe (zigzagI64 value))
    -- the vector grows up to the size of its contents
    withCapacity 1 output.length
    c.base.enforceByteLimit output.length
    pure output
  else do
    let required ← encodedI64SliceSize c values
    -- `try_reserve_exact`
    Outcome.require (required ≤ isizeMax) (.sizeLimit u64Max)
    let (outcome, output) := encodeI64SliceIntoSlice c values (List.replicate required 0)
    let _ ← outcome
    pure output

/-! ## Decoding -/

/-- `byte` of the cursor. -/
def byte : Act Cursor Error UInt8 := do
  let bytes ← take 1
  match bytes with
  | first :: _ => pure first
  | [] => panic

/-- The payload of a marker. -/
def payload (width minimum : ℕ) : Act Cursor Error ℕ := do
  let value ← number width
  if value < minimum then throw .nonCanonicalVarint else pure value

/-- `varint` of the cursor. -/
def varint : Act Cursor Error ℕ := do
  let marker ← byte
  if marker.toNat ≤ 250 then pure marker.toNat
  else if marker = markerU16 then payload 2 251
  else if marker = markerU32 then payload 4 0x10000
  else if marker = markerU64 then payload 8 0x100000000
  else if marker = markerU128 then payload 16 0x10000000000000000
  else throw (.invalidVarintMarker marker)

def usizeVarint : Act Cursor Error ℕ := do
  let value ← varint
  if value ≤ u64Max then pure value else throw (.integerOverflow "usize")

/-- A decoding: the cursor and the values that have been written to the output. -/
structure Decoding where
  cursor : Cursor
  values : List Int64

namespace Decoding

variable {α : Type}

/-- Read from the input. -/
def reading (m : Act Cursor Error α) : Act Decoding Error α := fun s =>
  let (outcome, cursor) := m s.cursor
  (outcome, { s with cursor := cursor })

/-- Write the next values of the output, which has room for as many as the frame announces. -/
def emit (values : List Int64) : Act Decoding Error Unit :=
  modify fun s => { s with values := s.values ++ values }

/-- `while written < length`. -/
def whileShort (length : ℕ) (body : Act Decoding Error Unit) : ℕ → Act Decoding Error Unit
  | 0 => diverge
  | rounds + 1 => do
      let s ← get
      if s.values.length < length then do
        body
        whileShort length body rounds
      else pure ()

/-- One value. -/
def rawValue : Act Decoding Error Unit := do
  let word ← reading varint
  let value ← call (decodeI64 word)
  emit [value]

/-- A round of the raw strategy: the plain bytes that come next, and one varint. -/
def rawRound (backend : Backend) (length : ℕ) : Act Decoding Error Unit := do
  let s ← get
  let remaining := length - s.values.length
  let plain := min (plainVarintPrefix backend (s.cursor.input.elems.drop s.cursor.position)) remaining
  let bytes ← reading (take plain)
  emit (bytes.map fun byte => Int64.ofInt (decodeI128 byte.toNat))
  let s ← get
  if s.values.length < length then rawValue else pure ()

/-- A round of the delta strategy. -/
def deltaRound : Act Decoding Error Unit := do
  let delta ← decodeI128 <$> reading varint
  let s ← get
  let previous ← call (Outcome.orPanic s.values.getLast?)
  let next ← okOr ((checkedAddI128 previous.toInt delta).bind toI64)
    (.adaptive "delta reconstruction overflow")
  emit [next]

/-- A round of the run-length strategy. -/
def runRound (length : ℕ) : Act Decoding Error Unit := do
  let word ← reading varint
  let value ← call (decodeI64 word)
  let run ← reading usizeVarint
  let s ← get
  if run = 0 ∨ length - s.values.length < run then throw (.adaptive "invalid run length")
  else emit (List.replicate run value)

/-- The values behind the header. -/
def decodeValues (backend : Backend) (strategy : CollectionStrategy) (length : ℕ) :
    Act Decoding Error Unit :=
  match strategy with
  | .raw => whileShort length (rawRound backend length) (length + 1)
  | .delta =>
      if length ≠ 0 then do
        rawValue
        whileShort length deltaRound (length + 1)
      else pure ()
  | .runLength => whileShort length (runRound length) (length + 1)

end Decoding

open Decoding

/-- The header: the strategy and the number of values. -/
def decodeHeader (c : AdaptiveConfig) : Act Cursor Error (CollectionStrategy × ℕ) := do
  let tag ← byte
  let strategy ← okOr (strategyOf tag) (.adaptive "unknown collection strategy")
  let length ← usizeVarint
  call (c.enforceCollectionLimit length)
  pure (strategy, length)

/-- The body of `decode_i64_slice_into`, for an output of `available` values. -/
def decodeFrame (backend : Backend) (c : AdaptiveConfig) (available : ℕ) :
    Act Decoding Error Unit := do
  let (strategy, length) ← reading (decodeHeader c)
  if available < length then throw (.bufferTooSmall length available)
  else
    decodeValues backend strategy length
    reading (finish c.base.trailing)

/-- `decode_i64_slice_into`, on the output. -/
def decodeI64SliceInto (backend : Backend) (c : AdaptiveConfig) (input : Slice 1 UInt8) :
    Act (List Int64) Error ℕ := do
  call (c.base.enforceByteLimit input.elems.length)
  fun output =>
    let (outcome, s) := decodeFrame backend c output.length ⟨Cursor.new input, []⟩
    (outcome >>= fun _ => .ok s.values.length, s.values ++ output.drop s.values.length)

def decodedI64SliceLen (c : AdaptiveConfig) (input : Slice 1 UInt8) : Outcome Error ℕ := do
  c.base.enforceByteLimit input.elems.length
  let (_, length) ← (decodeHeader c (Cursor.new input)).1
  pure length

def decodeI64Vec (backend : Backend) (c : AdaptiveConfig) (input : Slice 1 UInt8) :
    Outcome Error (List Int64) := do
  let length ← decodedI64SliceLen c input
  -- `try_reserve_exact`
  Outcome.require (8 * length ≤ isizeMax) (.sizeLimit u64Max)
  let (outcome, values) := decodeI64SliceInto backend c input (List.replicate length 0)
  let _ ← outcome
  pure values

end RustBinary.Adaptive
