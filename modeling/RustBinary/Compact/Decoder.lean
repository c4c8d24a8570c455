import RustBinary.Compact.Types
import RustBinary.Core.Canonical
import RustBinary.Lib.Script
import RustBinary.Lib.Spells

/-!
# The compact decoder

The cursor of the compact profile and the decoders of the types.  Every read is checked against the
byte limit; the length of a collection is checked against the collection limit, and the open
collections against the depth limit.
-/

namespace RustBinary.Compact

open Lib Lib.Act

/-- `CompactCursor`, with the address of the input for the alignment of a bulk copy. -/
structure CompactCursor where
  input : Slice 1 UInt8
  address : ℕ
  position : ℕ
  limitEnd : Option ℕ
  collectionLimit : Option ℕ
  depthLimit : ℕ
  depth : ℕ

/-- An action of the cursor. -/
abbrev Dec (α : Type) : Type := Act CompactCursor Error α

/-- `try_reserve_exact` and `try_reserve`, for elements of `size` bytes. -/
def tryReserve (size count : ℕ) : Dec Unit :=
  if size * count ≤ isizeMax then pure () else throw (.sizeLimit u64Max)

/-- `copy_from_slice`, which aborts unless both sides have the same length. -/
def copyFromSlice {α : Type} (out values : List α) : Dec (List α) :=
  if out.length = values.length then pure values else panic

/-- `decode_varint_le_u64`. -/
def decodeVarintLeU64 (marker : UInt8) (payload : List UInt8) : Option ℕ :=
  if marker.toNat ≤ 250 then some marker.toNat
  else if marker = markerU16 then (readLe 2 payload).bind (atLeast 251)
  else if marker = markerU32 then (readLe 4 payload).bind (atLeast (2 ^ 16))
  else if marker = markerU64 then (readLe 8 payload).bind (atLeast (2 ^ 32))
  else none

namespace CompactCursor

/-- The limit is a boundary of its own only where the input goes beyond it. -/
def new (address : ℕ) (input : Slice 1 UInt8) (config : Config) : CompactCursor where
  input := input
  address := address
  position := 0
  limitEnd := config.limit.filter fun limit => limit < input.elems.length
  collectionLimit := config.collectionLimit
  depthLimit := config.depthLimit
  depth := 0

def enforceLimit (stop : ℕ) : Dec Unit := do
  let cursor ← get
  atMost cursor.limitEnd stop .sizeLimit

def setPosition (position : ℕ) : Dec Unit := modify fun cursor => { cursor with position := position }

/-- `take` and `read_bytes`. -/
def take (len : ℕ) : Dec (List UInt8) := do
  let cursor ← get
  let stop ← okOr (checkedAdd cursor.position len) .unexpectedEnd
  enforceLimit stop
  let bytes ← okOr (slice cursor.input.elems cursor.position stop) .unexpectedEnd
  setPosition stop
  pure bytes

def advanceOne (position : ℕ) : Dec Unit := do
  enforceLimit (position + 1)
  setPosition (position + 1)

def byte : Dec UInt8 := do
  let cursor ← get
  let byte ← okOr cursor.input.elems[cursor.position]? .unexpectedEnd
  advanceOne cursor.position
  pure byte

/-- The bytes of a varint with this marker. -/
def widthOf (marker : UInt8) : Option ℕ :=
  if marker = markerU16 then some 3
  else if marker = markerU32 then some 5
  else if marker = markerU64 then some 9
  else if marker = markerU128 then some 17
  else none

/-- The payload behind a marker, and the position behind the payload. -/
def payloadOf (cursor : CompactCursor) (marker : UInt8) : Dec (List UInt8 × ℕ) := do
  let width ← okOr (widthOf marker) (.invalidVarintMarker marker)
  let stop := cursor.position + width
  enforceLimit stop
  let bytes ← okOr (slice cursor.input.elems (cursor.position + 1) stop) .unexpectedEnd
  pure (bytes, stop)

/-- A varint; `decode` is for what has a marker. -/
def readMarked (decode : UInt8 → List UInt8 → Outcome Error ℕ) : Dec ℕ := do
  let cursor ← get
  let marker ← okOr cursor.input.elems[cursor.position]? .unexpectedEnd
  if marker.toNat ≤ 250 then do
    advanceOne cursor.position
    pure marker.toNat
  else do
    let (bytes, stop) ← payloadOf cursor marker
    setPosition stop
    call (decode marker bytes)

/-- A marked `u64`; a wider value is an overflow. -/
def decodeU64 (marker : UInt8) (bytes : List UInt8) : Outcome Error ℕ :=
  if marker = markerU128 then do
    let value ← Outcome.okOr (decodeVarintLe marker bytes) .nonCanonicalVarint
    if value ≤ u64Max then .ok value else .err (.integerOverflow "u64")
  else Outcome.okOr (decodeVarintLeU64 marker bytes) .nonCanonicalVarint

def decodeU128 (marker : UInt8) (bytes : List UInt8) : Outcome Error ℕ :=
  Outcome.okOr (decodeVarintLe marker bytes) .nonCanonicalVarint

def readVarint : Dec ℕ := readMarked decodeU64

def readVarintU128 : Dec ℕ := readMarked decodeU128

/-- `try_from`, by its bounds. -/
def inRange (low high : ℤ) (target : String) (value : ℤ) : Dec ℤ :=
  if low ≤ value ∧ value < high then pure value else throw (.integerOverflow target)

def readZigzag : Dec ℤ := do
  let encoded ← readVarintU128
  inRange (-2 ^ 63) (2 ^ 63) "i64" (zigzagDecode encoded)

def readZigzagI128 : Dec ℤ := do
  let encoded ← readVarintU128
  pure (zigzagDecode encoded)

def readBool : Dec Bool := do
  let byte ← byte
  if byte = 0 then pure false else if byte = 1 then pure true else throw (.invalidBool byte)

/-- `read_f32` and `read_f64`, on the bits. -/
def readFloat (w : FloatWidth) : Dec (BitVec w.bits) := do
  let bytes ← take w.bytes
  pure (BitVec.ofNat w.bits (leNat bytes))

def readLength : Dec ℕ := do
  let value ← readVarint
  if value ≤ u64Max then pure value else throw (.integerOverflow "usize")

def readStr : Dec String := do
  let len ← readLength
  let bytes ← take len
  okOr (fromUtf8 bytes) .invalidUtf8

def depthError : Error := .custom "compact decode nesting depth limit exceeded"

def enterContainer (len : ℕ) : Dec Unit := do
  let cursor ← get
  atMost cursor.collectionLimit len .collectionLimit
  if cursor.depthLimit ≤ cursor.depth then throw depthError
  else modify fun cursor => { cursor with depth := cursor.depth + 1 }

/-- The count of open collections aborts below zero. -/
def exitContainer : Dec Unit := do
  let cursor ← get
  if cursor.depth = 0 then panic else modify fun cursor => { cursor with depth := cursor.depth - 1 }

/-- The loop of `read_varints_bulk`, with `remaining` values to come behind `out`.  Every round reads
one at least, so that as many rounds are enough. -/
def varintsLoop [Platform] : ℕ → ℕ → List ℕ → Dec (List ℕ)
  | _, 0, out => pure out
  | 0, _ + 1, _ => diverge
  | rounds + 1, remaining + 1, out => do
      let cursor ← get
      let marker ← okOr cursor.input.elems[cursor.position]? .unexpectedEnd
      if marker.toNat ≤ 250 then do
        let available := cursor.input.elems.drop (cursor.position + 1)
        let window := available.take (min remaining available.length)
        let extra := min (Adaptive.plainVarintPrefix Platform.backend window) remaining
        let stop := cursor.position + 1 + extra
        enforceLimit stop
        let run ← call (Outcome.orPanic (slice cursor.input.elems cursor.position stop))
        setPosition stop
        varintsLoop rounds (remaining - extra) (out ++ run.map UInt8.toNat)
      else do
        let (bytes, stop) ← payloadOf cursor marker
        let value ← call (decodeU64 marker bytes)
        setPosition stop
        varintsLoop rounds remaining (out ++ [value])

def readVarintsBulk [Platform] (len : ℕ) : Dec (List ℕ) := do
  tryReserve 8 len
  varintsLoop len len []

/-- `read_f64_vec` and `read_f32_vec`. -/
def readFloatVec [Target] (w : FloatWidth) (len : ℕ) : Dec (List (BitVec w.bits)) := do
  let byteLen ← okOr (checkedMul len w.bytes) (.integerOverflow "usize")
  let cursor ← get
  let bytes ← take byteLen
  tryReserve w.bytes len
  let values := (List.range len).map fun i =>
    BitVec.ofNat w.bits (leNat ((bytes.drop (w.bytes * i)).take w.bytes))
  if Target.littleEndian ∧ (cursor.address + cursor.position) % w.bytes = 0 then
    copyFromSlice [] values
  else pure values

end CompactCursor

open CompactCursor

/-- `char::from_u32`. -/
def charFromU32 (value : ℕ) : Option Char :=
  if value.isValidChar then some (Char.ofNat value) else none

/-- One call of `m` after the other. -/
def decodeTimes {α : Type} (m : Dec α) : ℕ → Dec (List α)
  | 0 => pure []
  | n + 1 => do
      let a ← m
      let rest ← decodeTimes m n
      pure (a :: rest)

namespace Scalar

/-- `decode_compact` of the primitive types. -/
def decode : (s : Scalar) → Dec s.Value
  | .unit => pure ()
  | .bool => readBool
  | .u8 => byte
  | .i8 => do
      let byte ← byte
      pure byte.toInt8
  | .unsigned w => do
      let value ← readVarint
      if value < 2 ^ w.bits then pure (BitVec.ofNat w.bits value)
      else throw (.integerOverflow w.unsignedName)
  | .signed w => do
      let value ← readZigzag
      let value ← inRange (-2 ^ (w.bits - 1)) (2 ^ (w.bits - 1)) w.signedName value
      pure (BitVec.ofInt w.bits value)
  | .u128 => do
      let value ← readVarintU128
      pure (BitVec.ofNat 128 value)
  | .i128 => do
      let value ← readZigzagI128
      pure (BitVec.ofInt 128 value)
  | .float w => readFloat w
  | .char => do
      let value ← readVarint
      if value < 2 ^ 32 then okOr (charFromU32 value) .invalidChar
      else throw (.integerOverflow "u32")
  | .string => readStr
  | .bytes => do
      let len ← readLength
      take len

/-- The elements of a vector, with the fast paths of `Vec::decode_compact`. -/
def decodeVec [Platform] : (s : Scalar) → ℕ → Dec (List s.Value)
  | .u8, len => do
      let bytes ← take len
      tryReserve 1 len
      pure bytes
  | .i8, len => do
      let bytes ← take len
      tryReserve 1 len
      copyFromSlice [] (bytes.map UInt8.toInt8)
  | .float w, len => readFloatVec w len
  | .unsigned .w64, len => do
      let words ← readVarintsBulk len
      pure (words.map (BitVec.ofNat 64))
  | s, len => do
      tryReserve (Platform.size (.scalar s)) len
      decodeTimes s.decode len

end Scalar

section Types

variable [Platform]

/-- The elements of a vector, with `decode` for those that are not primitive. -/
def CompactType.decodeVec : (t : CompactType) → Dec t.Value → ℕ → Dec (List t.Value)
  | .scalar s, _, len => s.decodeVec len
  | t, decode, len => do
      tryReserve (Platform.size t) len
      decodeTimes decode len

/-- `insert` into a `BTreeMap`: the entries stay sorted. -/
def insertSorted {K V : Type} (cmp : K → K → Ordering) (key : K) (value : V) :
    List (K × V) → Option (List (K × V))
  | [] => some [(key, value)]
  | entry :: rest =>
      match cmp key entry.1 with
      | .lt => some ((key, value) :: entry :: rest)
      | .eq => none
      | .gt => (insertSorted cmp key value rest).map fun rest => entry :: rest

/-- `insert` of a key that must be new. -/
def insertNew (kind : MapKind) (key : CompactType) {V : Type} (k : key.Value) (v : V)
    (entries : List (key.Value × V)) : Option (List (key.Value × V)) :=
  match kind with
  | .tree => insertSorted (Platform.cmp key) k v entries
  | .hash =>
      if entries.any fun entry => Platform.same key entry.1 k then none
      else some (entries ++ [(k, v)])

/-- The loop over the entries of a map. -/
def decodeEntries (kind : MapKind) (key : CompactType) {V : Type} (decodeKey : Dec key.Value)
    (decodeValue : Dec V) : ℕ → List (key.Value × V) → Dec (List (key.Value × V))
  | 0, out => pure out
  | n + 1, out => do
      let k ← decodeKey
      let v ← decodeValue
      let out ← okOr (insertNew kind key k v out) (.custom "duplicate map key")
      decodeEntries kind key decodeKey decodeValue n out

/-- `HashMap::try_reserve`; a `BTreeMap` reserves nothing. -/
def reserveMap (kind : MapKind) (key value : CompactType) (len : ℕ) : Dec Unit :=
  if kind = .hash ∧ Platform.reserves key value len = false then throw (.sizeLimit u64Max)
  else pure ()

/-- What all collections do: the length, and the elements between the two calls. -/
def decodeContainer {α : Type} (elements : ℕ → Dec α) : Dec α := do
  let len ← readLength
  enterContainer len
  (elements len).leaving exitContainer

def decodeVariantIndex : Dec ℕ := do
  let index ← readVarint
  if index < 2 ^ 32 then pure index else throw (.integerOverflow "u32")

mutual

/-- `decode_compact`. -/
def CompactType.decode : (t : CompactType) → Dec t.Value
  | .scalar s => s.decode
  | .option t => do
      let present ← readBool
      if present then do
        let value ← t.decode
        pure (some value)
      else pure none
  | .vec t => decodeContainer (t.decodeVec t.decode)
  | .deque t => decodeContainer fun len => do
      tryReserve (Platform.size t) len
      let values ← decodeTimes t.decode len
      pure (values, [])
  | .array n t => decodeTimes t.decode n
  | .map kind key value => decodeContainer fun len => do
      reserveMap kind key value len
      decodeEntries kind key key.decode value.decode len []
  | .struct fields => fields.decode
  | .enum variants => do
      let index ← decodeVariantIndex
      variants.decode index

/-- The fields, in order. -/
def Fields.decode : (fields : Fields) → Dec fields.Values
  | .nil => pure ()
  | .cons t rest => do
      let value ← t.decode
      let values ← rest.decode
      pure (value, values)

/-- The arm of the variant with the index `index`. -/
def Variants.decode : (variants : Variants) → ℕ → Dec variants.Value
  | .nil, _ => throw (.custom "unknown compact enum variant")
  | .cons fields _, 0 => do
      let values ← fields.decode
      pure (.inl values)
  | .cons _ rest, index + 1 => do
      let value ← rest.decode index
      pure (.inr value)

end

/-- `CompactConfig::deserialize`, on an input at `address`. -/
def deserialize (config : Config) (t : CompactType) (address : ℕ) (input : Slice 1 UInt8) :
    Outcome Error t.Value := do
  let (outcome, cursor) := t.decode (CompactCursor.new address input config)
  let value ← outcome
  if config.trailing = .reject ∧ cursor.position ≠ input.elems.length then
    .err (.trailingBytes (input.elems.length - cursor.position))
  else .ok value

end Types

end RustBinary.Compact
