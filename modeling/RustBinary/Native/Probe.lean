import RustBinary.Lib.Tree
import RustBinary.Core.Canonical

/-!
# The structural probe

The walker goes over one value of the self-describing wire without making anything of it, and counts
its bytes, containers, entries and levels.  Varints are read as little-endian, whatever the byte
order of the configuration.
-/

namespace RustBinary.Native

open Lib Lib.Act

/-- `Probe`. -/
structure Probe where
  bytes : ℕ
  containers : ℕ
  elements : ℕ
  depth : ℕ
deriving DecidableEq, Repr

structure Walker where
  input : Input
  cursor : ℕ
  config : Config
  containers : ℕ
  elements : ℕ
  depth : ℕ
  maxDepth : ℕ

/-- An action of the walker. -/
abbrev Walk (α : Type) : Type := Act Walker Error α

namespace Walker

/-- The walker that `probe` starts with. -/
def new (input : Input) (config : Config) : Walker where
  input := input
  cursor := 0
  config := config
  containers := 0
  elements := 0
  depth := 0
  maxDepth := 0

/-! ## Numbers -/

/-- The end of the next `len` bytes, within the byte limit. -/
def stopAt (len : ℕ) : Walk ℕ := do
  let s ← get
  let stop ← okOr (checkedAdd s.cursor len) .unexpectedEnd
  atMost s.config.limit stop .sizeLimit
  pure stop

/-- The bytes up to `stop`, which are taken. -/
def upTo (stop : ℕ) : Walk (List UInt8) := do
  let s ← get
  let bytes ← okOr (slice s.input.bytes s.cursor stop) .unexpectedEnd
  modify fun s => { s with cursor := stop }
  pure bytes

/-- `self.input.get(self.cursor..end)`, as `varint` reads its payload. -/
def payload (len : ℕ) : Walk (List UInt8) := do
  let stop ← stopAt len
  upTo stop

def take (len : ℕ) : Walk Unit := do
  let stop ← stopAt len
  let s ← get
  if s.input.bytes.length < stop then throw .unexpectedEnd
  else modify fun s => { s with cursor := stop }

/-- `self.input[self.cursor - 1]`. -/
def last : Walk UInt8 := do
  let s ← get
  match s.input.bytes[s.cursor - 1]? with
  | some byte => pure byte
  | none => panic

def byte : Walk UInt8 := do
  take 1
  last

def peek : Walk UInt8 := do
  let s ← get
  okOr s.input.bytes[s.cursor]? .unexpectedEnd

def payloadLen (marker : UInt8) : Walk ℕ :=
  if marker = markerU16 then pure 2
  else if marker = markerU32 then pure 4
  else if marker = markerU64 then pure 8
  else if marker = markerU128 then pure 16
  else throw (.invalidVarintMarker marker)

def varint : Walk ℕ := do
  let marker ← byte
  if marker.toNat ≤ 250 then pure marker.toNat
  else do
    let len ← payloadLen marker
    let bytes ← payload len
    okOr (decodeVarintLe marker bytes) .nonCanonicalVarint

def number (fixedBytes : ℕ) : Walk Unit := do
  let s ← get
  if s.config.integers = .variable ∧ 1 < fixedBytes then (fun _ => ()) <$> varint
  else take fixedBytes

/-- A length; in the fixed profile its bytes are taken, and it is said to be zero. -/
def length : Walk ℕ := do
  let s ← get
  if s.config.integers = .variable then do
    let value ← varint
    if value ≤ u64Max then pure value else throw (.integerOverflow "u64")
  else do
    take 8
    pure 0

/-- A length and as many bytes; on a 64-bit target every `u64` is a `usize`. -/
def text : Walk Unit := do
  let len ← length
  take len

/-! ## Values -/

/-- The first half of `container`. -/
def enter : Walk Unit := do
  modify fun s => { s with containers := s.containers + 1 }
  let s ← get
  if s.config.depthLimit ≤ s.depth then throw (.custom "decoder nesting depth limit exceeded")
  else modify fun s => { s with depth := s.depth + 1, maxDepth := max s.maxDepth (s.depth + 1) }

/-- The last half of `container`. -/
def leave (count : ℕ) : Walk Unit :=
  modify fun s => { s with elements := s.elements + count, depth := s.depth - 1 }

/-- `container`, around its loop. -/
def container (loop : Walk ℕ) : Walk Unit := do
  enter
  let count ← loop
  leave count

/-- The key of an entry of an object. -/
def key : Kind → Walk Unit
  | .array => pure ()
  | .object => do
      let tag ← byte
      if tag ≠ tagString then throw (.custom "invalid object key") else text

/-- The check of `count += 1`. -/
def count (entries : ℕ) : Walk Unit := do
  let s ← get
  atMost s.config.collectionLimit entries .collectionLimit

/-- What `value` does behind a tag. -/
def afterTag (loop : Kind → Walk ℕ) (tag : UInt8) : Walk Unit :=
  if tag = tagNull ∨ tag = tagFalse ∨ tag = tagTrue then pure ()
  else if tag = tagU64 ∨ tag = tagI64 then number 8
  else if tag = tagU128 ∨ tag = tagI128 then number 16
  else if tag = tagF64 then take 8
  else if tag = tagF32 then take 4
  else if tag = tagString then text
  else if tag = tagArray then container (loop .array)
  else if tag = tagObject then container (loop .object)
  else if tag = tagEnd then throw (.custom "unexpected end-of-container terminator")
  else throw (.custom "invalid value tag")

mutual

/-- `value`.  Every call takes a byte of input, and every round of a loop is a call. -/
def value : ℕ → Walk Unit
  | 0 => diverge
  | n + 1 => do
      let tag ← byte
      afterTag (fun kind => entries n kind 0) tag

/-- The loop of `container`, with `passed` entries behind it. -/
def entries : ℕ → Kind → ℕ → Walk ℕ
  | 0, _, _ => diverge
  | n + 1, kind, passed => do
      let tag ← peek
      if tag = tagEnd then do
        take 1
        pure passed
      else do
        count (passed + 1)
        key kind
        value n
        entries n kind (passed + 1)

end

end Walker

/-- `probe`. -/
def probe (config : Config) (input : Input) : Outcome Error Probe :=
  match Walker.value (2 * input.bytes.length + 1) (Walker.new input config) with
  | (.ok _, s) =>
      if config.trailing = .reject ∧ s.cursor ≠ input.bytes.length then
        .err (.trailingBytes (input.bytes.length - s.cursor))
      else .ok ⟨s.cursor, s.containers, s.elements, s.maxDepth⟩
  | (.err e, _) => .err e
  | (.panic, _) => .panic
  | (.diverge, _) => .diverge

end RustBinary.Native
