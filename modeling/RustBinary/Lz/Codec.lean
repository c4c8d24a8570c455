import RustBinary.Core.Slice
import RustBinary.Lib.Act
import RustBinary.Lib.Bytes

/-!
# Sliding-window compression

The matcher finds candidates through a hash of three bytes and compares them with the input.  A
token is a flag bit and either a byte or the length and the distance of a match, and the tokens
follow the length of the input.  The decoder copies matches byte by byte, so that they may overlap
what they write.
-/

namespace RustBinary.Lz

open Lib Lib.Act

/-- `WINDOW_SIZE`. -/
def windowSize : ℕ := 32768

/-- `MIN_MATCH`. -/
def minMatch : ℕ := 3

/-- `MAX_MATCH`. -/
def maxMatch : ℕ := 258

/-- `HASH_BUCKETS`. -/
def hashBuckets : ℕ := 65536

/-- `LzError`. -/
inductive LzError where
  | unexpectedEnd
  | invalidDistance
  | lengthMismatch
deriving DecidableEq, Repr

/-! ## The bit stream -/

/-- The least significant bit of the buffer is the next one of the stream. -/
structure BitWriter where
  buffer : List UInt8
  bitBuffer : UInt64
  bitCount : ℕ

namespace BitWriter

def new : BitWriter := ⟨[], 0, 0⟩

/-- The loop of `flush`, over the whole bytes of the buffer. -/
def flushBytes : ℕ → BitWriter → BitWriter
  | 0, w => w
  | bytes + 1, w =>
      flushBytes bytes ⟨w.buffer ++ [(w.bitBuffer &&& 0xff).toUInt8], w.bitBuffer >>> 8,
        w.bitCount - 8⟩

def flush (w : BitWriter) : BitWriter := w.flushBytes (w.bitCount / 8)

def ensureCapacity (needed : ℕ) (w : BitWriter) : BitWriter :=
  if 64 < w.bitCount + needed then w.flush else w

def writeBit (value : Bool) (w : BitWriter) : BitWriter :=
  let w := w.ensureCapacity 1
  let w := { w with
    bitBuffer := w.bitBuffer ||| value.toUInt64 <<< UInt64.ofNat w.bitCount
    bitCount := w.bitCount + 1 }
  if w.bitCount = 64 then w.flush else w

def writeBits (value : UInt32) (count : ℕ) (w : BitWriter) : BitWriter :=
  let w := w.ensureCapacity count
  let w := { w with
    bitBuffer := w.bitBuffer ||| value.toUInt64 <<< UInt64.ofNat w.bitCount
    bitCount := w.bitCount + count }
  if 64 ≤ w.bitCount then w.flush else w

def writeU32 (value : UInt32) (w : BitWriter) : BitWriter :=
  if w.bitCount = 0 then { w with buffer := w.buffer ++ leBytes 4 value.toNat }
  else
    [(0 : UInt32), 8, 16, 24].foldl (fun w shift => w.writeBits (value >>> shift &&& 0xff) 8) w

def finish (w : BitWriter) : List UInt8 :=
  let w := w.flush
  if 0 < w.bitCount then w.buffer ++ [(w.bitBuffer &&& 0xff).toUInt8] else w.buffer

end BitWriter

structure BitReader where
  bytes : List UInt8
  bytePos : ℕ
  bitPos : ℕ
  bitPos_lt : bitPos < 8

namespace BitReader

def new (bytes : List UInt8) : BitReader := ⟨bytes, 0, 0, Nat.succ_pos 7⟩

/-- The reader behind the next bit. -/
def next (s : BitReader) : BitReader :=
  if h : s.bitPos + 1 = 8 then ⟨s.bytes, s.bytePos + 1, 0, Nat.succ_pos 7⟩
  else ⟨s.bytes, s.bytePos, s.bitPos + 1, by have := s.bitPos_lt; omega⟩

/-- `read_bit`; the callers make `None` the end of the input. -/
def readBit : Act BitReader LzError Bool := do
  let s ← get
  let byte ← okOr s.bytes[s.bytePos]? .unexpectedEnd
  modify next
  pure (byte >>> UInt8.ofNat s.bitPos &&& 1 != 0)

def readBits : ℕ → Act BitReader LzError UInt32
  | 0 => pure 0
  | i + 1 => do
      let value ← readBits i
      let bit ← readBit
      pure (value ||| bit.toUInt32 <<< UInt32.ofNat i)

def readU32 : Act BitReader LzError UInt32 := do
  let a ← readBits 8
  let b ← readBits 8
  let c ← readBits 8
  let d ← readBits 8
  pure (a ||| b <<< 8 ||| c <<< 16 ||| d <<< 24)

end BitReader

/-! ## Compression -/

/-- `hash3`. -/
def hash3 : List UInt8 → Outcome LzError ℕ
  | a :: b :: c :: _ =>
      let hash : UInt64 := 0x811c9dc5
      let hash := (hash ^^^ a.toUInt64) * 0x01000193
      let hash := (hash ^^^ b.toUInt64) * 0x01000193
      let hash := (hash ^^^ c.toUInt64) * 0x01000193
      .ok (hash >>> 16 &&& 0xffff).toNat
  | _ => .panic

/-- The largest `u32`, which marks the end of a chain. -/
def u32Max : UInt32 := 0xffffffff

/-- What `compress` changes: the chains of positions with one hash, the output and the position. -/
structure Compressor where
  head : List UInt32
  prev : List UInt32
  output : BitWriter
  pos : ℕ

/-- The length of a match: the inner loop, with `budget` bytes left of `remaining`. -/
def matchLength (input : List UInt8) (c pos : ℕ) : ℕ → ℕ → ℕ
  | 0, len => len
  | budget + 1, len =>
      -- both indices are in bounds below `remaining`
      if input[c + len]? = input[pos + len]? then matchLength input c pos budget (len + 1) else len

/-- The chain loop, with `chain` candidates left to try: the best length and its distance. -/
def search (input : List UInt8) (prev : List UInt32) (pos maxLen windowStart : ℕ) :
    ℕ → UInt32 → ℕ × ℕ → Outcome LzError (ℕ × ℕ)
  | 0, _, best => .ok best
  | chain + 1, candidate, best =>
      if candidate = u32Max then .ok best
      else
        let c := candidate.toNat
        if c < windowStart then .ok best
        else
          let dist := pos - c
          let next (best : ℕ × ℕ) : Outcome LzError (ℕ × ℕ) := do
            let candidate ← Outcome.orPanic prev[c]?
            search input prev pos maxLen windowStart chain candidate best
          if windowSize < dist then next best
          else if c + maxLen ≤ input.length then
            let len := matchLength input c pos (min maxLen (input.length - c)) 0
            if best.1 < len then
              if len = maxLen then .ok (len, dist) else next (len, dist)
            else next best
          else next best

/-- The best match at the position. -/
def findMatch (input : List UInt8) (maxChain : ℕ) (s : Compressor) : Outcome LzError (ℕ × ℕ) :=
  let maxLen := min maxMatch (input.length - s.pos)
  if minMatch ≤ maxLen then do
    let h ← hash3 (input.drop s.pos)
    let candidate ← Outcome.orPanic s.head[h]?
    search input s.prev s.pos maxLen (s.pos - windowSize) maxChain candidate (0, 0)
  else .ok (0, 0)

/-- Insert the position `i` into its chain. -/
def insert (input : List UInt8) (i : ℕ) : Act Compressor LzError Unit :=
  if i + minMatch ≤ input.length then do
    let s ← get
    let h ← call (hash3 (input.drop i))
    let first ← call (Outcome.orPanic s.head[h]?)
    -- `prev` is as long as the input
    modify fun s => { s with prev := s.prev.set i first, head := s.head.set h (UInt32.ofNat i) }
  else pure ()

/-- Insert `count` positions from `start` on. -/
def insertRange (input : List UInt8) (start : ℕ) : ℕ → Act Compressor LzError Unit
  | 0 => pure ()
  | i + 1 => do
      insertRange input start i
      insert input (start + i)

/-- Emit a match token and insert every position of the match. -/
def emitMatch (input : List UInt8) (bestLen bestDist : ℕ) : Act Compressor LzError Unit := do
  modify fun s => { s with
    output := ((s.output.writeBit true).writeBits (UInt32.ofNat (bestLen - minMatch)) 8).writeBits
      (UInt32.ofNat (bestDist - 1)) 15 }
  let s ← get
  let stop := min (s.pos + bestLen) input.length
  insertRange input s.pos (stop - s.pos)
  modify fun s => { s with pos := stop }

/-- Emit a literal token and insert its position. -/
def emitLiteral (input : List UInt8) : Act Compressor LzError Unit := do
  let s ← get
  let byte ← call (Outcome.orPanic input[s.pos]?)
  modify fun s => { s with output := (s.output.writeBit false).writeBits byte.toUInt32 8 }
  insert input s.pos
  modify fun s => { s with pos := s.pos + 1 }

/-- A round of the main loop. -/
def round (input : List UInt8) (maxChain : ℕ) : Act Compressor LzError (Unit ⊕ List UInt8) := do
  let s ← get
  if s.pos < input.length then
    let best ← call (findMatch input maxChain s)
    if minMatch ≤ best.1 then emitMatch input best.1 best.2 else emitLiteral input
    pure (.inl ())
  else pure (.inr s.output.finish)

/-- `compress`. -/
def compress (input : List UInt8) (level : ℤ) : Outcome LzError (List UInt8) :=
  if input.length < minMatch then .ok []
  else
    let level := max 1 (min level 22)
    let maxChain := min (4 + level.toNat * 4) 96
    let start : Compressor := {
      head := List.replicate hashBuckets u32Max
      prev := List.replicate input.length u32Max
      output := BitWriter.new.writeU32 (UInt32.ofNat input.length)
      pos := 0 }
    -- a round moves the position on
    (iterate (fun _ => round input maxChain) (input.length + 1) () start).1

/-! ## Decompression -/

/-- The copy loop of a match that starts at `start`. -/
def copyBack (start distance : ℕ) : ℕ → List UInt8 → Outcome LzError (List UInt8)
  | 0, output => .ok output
  | i + 1, output => do
      let output ← copyBack start distance i output
      let src ← Outcome.orPanic output[start + i - distance]?
      pure (output ++ [src])

/-- A round of the loop of `decompress`. -/
def decodeToken (declared : ℕ) (output : List UInt8) :
    Act BitReader LzError (List UInt8 ⊕ List UInt8) := do
  if output.length < declared then
    let isMatch ← BitReader.readBit
    if isMatch then
      let length ← BitReader.readBits 8
      let distance ← BitReader.readBits 15
      if output.length < distance.toNat + 1 then throw .invalidDistance
      else
        let output ← call (copyBack output.length (distance.toNat + 1) (length.toNat + minMatch)
          output)
        pure (.inl output)
    else
      let byte ← BitReader.readBits 8
      pure (.inl (output ++ [byte.toUInt8]))
  else pure (.inr output)

/-- `decompress`. -/
def decompress (input : List UInt8) (expected : ℕ) : Outcome LzError (List UInt8) :=
  let run : Act BitReader LzError (List UInt8) := do
    let declared ← BitReader.readU32
    let declared := declared.toNat
    if expected < declared then throw .lengthMismatch
    else
      -- a round makes the output longer
      let output ← iterate (decodeToken declared) (declared + 1) []
      if output.length ≠ declared then throw .lengthMismatch
      else pure output
  (run (BitReader.new input)).1

end RustBinary.Lz
