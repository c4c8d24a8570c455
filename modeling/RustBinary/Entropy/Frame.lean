import RustBinary.Entropy.Coder

/-!
# Entropy frames

The framed profile: a header with the symbol count and the final state, and the payload.  A
frame may be flagged as raw; then its payload is the literal input.
-/

namespace RustBinary.Entropy

open Lib Lib.Outcome

def magic : List UInt8 := [0x52, 0x42, 0x41, 0x4e]

def formatVersion : ℕ := 3

def flagRaw : ℕ := 0x0001

/-- Frame layout: magic(4) + version(2) + flags(2) + count(8) + state(8). -/
def headerLen : ℕ := 24

/-- rANS entropy profile wrapping a `Config`. -/
structure EntropyConfig where
  base : Config
  replayVerification : Bool
  rawFallback : Bool

namespace EntropyConfig

def new (base : Config) : EntropyConfig := ⟨base, true, true⟩

/-- Disables replay verification. -/
def withoutReplayVerification (c : EntropyConfig) : EntropyConfig :=
  { c with replayVerification := false }

/-- Disables the raw (uncompressed) fallback. -/
def withoutRawFallback (c : EntropyConfig) : EntropyConfig := { c with rawFallback := false }

/-- The bytes of a frame. -/
def frame (storedState count : ℕ) (payload : List UInt8) (raw : Bool) : List UInt8 :=
  magic ++ (leBytes 2 formatVersion ++ (leBytes 2 (if raw then flagRaw else 0)
    ++ (leBytes 8 count ++ (leBytes 8 storedState ++ payload))))

/-- Wraps a payload in a versioned entropy frame. -/
def wrap (c : EntropyConfig) (finalState count : ℕ) (payload : List UInt8) (raw : Bool) :
    Outcome Error (List UInt8) := do
  let total ← okOr (checkedAdd headerLen payload.length) (.sizeLimit u64Max)
  c.base.enforceByteLimit total
  let storedState := if raw then 0 else finalState
  .ok (frame storedState count payload raw)

/-- Parses and validates a frame, returning `(count, final_state, is_raw, payload)`. -/
def unwrap (c : EntropyConfig) (input : List UInt8) :
    Outcome Error (ℕ × ℕ × Bool × List UInt8) := do
  c.base.enforceByteLimit input.length
  let header ← okOr (slice input 0 headerLen) .unexpectedEnd
  require (header.take 4 = magic) (.invalidFrame "entropy magic does not match")
  require (leNat ((header.drop 4).take 2) = formatVersion)
    (.invalidFrame "unsupported entropy format version")
  let flags := leNat ((header.drop 6).take 2)
  require (flags &&& (0xffff - flagRaw) = 0) (.invalidFrame "unknown entropy frame flags")
  let count := leNat ((header.drop 8).take 8)
  let finalState := leNat ((header.drop 16).take 8)
  let payload := input.drop headerLen
  require (¬ (flags &&& flagRaw ≠ 0 ∧ finalState ≠ 0))
    (.invalidFrame "raw entropy frame has a non-zero state")
  .ok (count, finalState, decide (flags &&& flagRaw ≠ 0), payload)

/-- `check_replay`. -/
def checkReplay (state : ℕ) (payload : List UInt8) (storedState : ℕ) (storedPayload : List UInt8) :
    Outcome Error Unit :=
  require (state = storedState ∧ payload = storedPayload)
    (.entropy "entropy frame did not replay canonically")

/-- Encodes a sequence of symbols, each with its own model, into one frame. -/
def encodeSequence (c : EntropyConfig) (models : List Model) (symbols : List ℕ) :
    Outcome Error (List UInt8) := do
  require (models.length = symbols.length) (.entropy "models and symbols length mismatch")
  let e ← putSymbols (models.zip symbols) .new
  c.wrap e.state symbols.length e.bytes false

/-- The 32-bit words of a raw payload. -/
def wordsOf : ℕ → List UInt8 → List ℕ
  | 0, _ => []
  | n + 1, bytes => leNat (bytes.take 4) :: wordsOf n (bytes.drop 4)

/-- Decodes a sequence coded by `encodeSequence`; a count always fits a 64-bit `usize`. -/
def decodeSequence (c : EntropyConfig) (models : List Model) (input : Input) :
    Outcome Error (List ℕ) := do
  let (count, finalState, raw, payload) ← c.unwrap input.bytes
  require (count = models.length) (.entropy "entropy frame symbol count mismatch")
  if raw then
    require (count * 4 ≤ u64Max) (.entropy "raw entropy frame length overflows")
    require (payload.length = count * 4) (.entropy "raw entropy frame length mismatch")
    withCapacity 4 count
    .ok (wordsOf count payload)
  else
    withCapacity 4 count
    -- the symbols come off in the reverse of the order in which they were put on
    let (symbols, d) ← getSymbols models.reverse (.new finalState payload)
    let symbols := symbols.reverse
    d.finish
    if c.replayVerification then
      let e ← putSymbols (models.zip symbols) .new
      checkReplay e.state e.bytes finalState payload
    .ok symbols

/-- Entropy-codes a byte buffer with one model, choosing raw storage when the coded form is
not smaller. -/
def compress (c : EntropyConfig) (input : List UInt8) (model : Model) :
    Outcome Error (List UInt8) := do
  let e ← putSymbols (input.map fun byte => (model, byte.toNat)) .new
  let raw := c.rawFallback && decide (input.length ≤ e.bytes.length)
  let payload := if raw then input else e.bytes
  c.wrap e.state input.length payload raw

/-- The loop of `decompress`. -/
def getBytes (model : Model) : ℕ → RansDecoder → Outcome Error (List UInt8 × RansDecoder)
  | 0, d => .ok ([], d)
  | n + 1, d => do
      let (symbol, d) ← d.getSymbol model
      if 255 < symbol then
        .err (.entropy "byte-alphabet rANS produced an out-of-range symbol")
      else
        let (output, d) ← getBytes model n d
        .ok (UInt8.ofNat symbol :: output, d)

/-- Decompresses a frame produced by `compress`. -/
def decompress (c : EntropyConfig) (input : Input) (model : Model) :
    Outcome Error (List UInt8) := do
  let (count, finalState, raw, payload) ← c.unwrap input.bytes
  if raw then
    require (payload.length = count) (.entropy "raw entropy frame length mismatch")
    .ok payload
  else
    withCapacity 1 count
    let (output, d) ← getBytes model count (.new finalState payload)
    let output := output.reverse
    d.finish
    if c.replayVerification then
      let e ← putSymbols (output.map fun byte => (model, byte.toNat)) .new
      checkReplay e.state e.bytes finalState payload
    .ok output

end EntropyConfig

end RustBinary.Entropy
