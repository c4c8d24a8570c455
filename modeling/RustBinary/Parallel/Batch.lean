import RustBinary.Core.Codec
import RustBinary.Core.Cursor
import RustBinary.Lib.Workers
import Mathlib.Data.PNat.Defs

/-!
# Parallel batches

`parallel_map` cuts its items into one piece for each worker and joins the results in order; a
batch frame has the payloads that it gives behind a table of their lengths.

Threads are taken to start.  A panic in a worker that is joined is an error; a worker that has not
been joined when the scope is left passes its panic on.
-/

namespace RustBinary.Parallel

open Lib Lib.Act

/-- `Error`, with the variant that only this codec has. -/
inductive Error where
  | base (e : RustBinary.Error)
  | parallelWorkerPanic
deriving DecidableEq, Repr

section Map

variable {I O : Type}

/-- `items.len().div_ceil(workers.min(items.len()))`. -/
def chunkSize (count : ℕ) (workers : ℕ+) : ℕ :=
  (count + min (workers : ℕ) count - 1) / min (workers : ℕ) count

/-- The pieces of the workers. -/
def pieces (items : List I) (workers : ℕ+) : List (List I) :=
  chunks (chunkSize items.length workers) items

/-- `parallel_map`, for results of `size` bytes each. -/
def parallelMap (size : ℕ) (items : List I) (workers : ℕ+) (operation : I → Outcome Error O) :
    Outcome Error (List O) :=
  if items.isEmpty then .ok []
  else
    let results := (pieces items workers).map (Outcome.mapAll operation)
    -- `Vec::with_capacity` for all results
    if size * items.length ≤ isizeMax then joinAll .parallelWorkerPanic results
    else leave results .panic

/-- What the calls on the pieces give after the workers have taken their steps in this order. -/
def parallelMapAfter (order : List ℕ) (size : ℕ) (items : List I) (workers : ℕ+)
    (operation : I → Outcome Error O) : Outcome Error (List O) :=
  if items.isEmpty then .ok []
  else
    let results := (runSchedule operation order (startAll (pieces items workers))).map Worker.joined
    if size * items.length ≤ isizeMax then joinAll .parallelWorkerPanic results
    else leave results .panic

/-- The sequential map; the panic of an item is an error here as well. -/
def sequentialMap (items : List I) (operation : I → Outcome Error O) : Outcome Error (List O) :=
  caught .parallelWorkerPanic (Outcome.mapAll operation items)

end Map

/-! ## Frames -/

/-- `RBP1`. -/
def magic : List UInt8 := [0x52, 0x42, 0x50, 0x31]

def version : ℕ := 1

def headerSize : ℕ := 16

structure ParallelConfig where
  base : Config
  workers : ℕ+

namespace ParallelConfig

/-- `with_worker_count`. -/
def withWorkerCount (c : ParallelConfig) (workers : ℕ+) : ParallelConfig :=
  { c with workers := workers }

/-- The size of a frame, from `required` on. -/
def requiredSize : ℕ → List (List UInt8) → Option ℕ
  | required, [] => some required
  | required, payload :: payloads => do
      let size ← checkedAdd required payload.length
      requiredSize size payloads

/-- The bytes of a frame. -/
def frame (payloads : List (List UInt8)) : List UInt8 :=
  magic ++ (leBytes 2 version ++ (leBytes 2 0 ++ (leBytes 8 payloads.length ++
    (payloads.flatMap (fun payload => leBytes 8 payload.length) ++ payloads.flatten))))

variable {T : Type}

/-- `serialize_batch`; a payload is a `Vec` of three words. -/
def serializeBatch (c : ParallelConfig) (codec : PayloadCodec T) (values : List T) :
    Outcome Error (List UInt8) := do
  (c.base.enforceCollectionLimit values.length).mapErr .base
  let payloads ← parallelMap 24 values c.workers fun value =>
    (codec.serialize value).mapErr .base
  let tableSize ← Outcome.okOr (checkedMul values.length 8)
    (.base (.invalidFrame "parallel length table overflow"))
  let header ← Outcome.okOr (checkedAdd headerSize tableSize)
    (.base (.invalidFrame "parallel frame size overflow"))
  let required ← Outcome.okOr (requiredSize header payloads)
    (.base (.invalidFrame "parallel frame size overflow"))
  (c.base.enforceByteLimit required).mapErr .base
  -- `try_reserve_exact`
  Outcome.require (required ≤ isizeMax) (.base (.sizeLimit u64Max))
  pure (frame payloads)

open Cursor

/-- The header: the number of payloads. -/
def parseHeader : Act Cursor RustBinary.Error ℕ := do
  let start ← take 4
  call (Outcome.require (start = magic) (.invalidFrame "bad parallel batch magic"))
  let format ← number 2
  call (Outcome.require (format = version) (.invalidFrame "unsupported parallel batch version"))
  let flags ← number 2
  call (Outcome.require (flags = 0) (.invalidFrame "unsupported parallel batch flags"))
  number 8

/-- The loop over the length table. -/
def parseLengths : ℕ → Act Cursor RustBinary.Error (List ℕ)
  | 0 => pure []
  | count + 1 => do
      let length ← number 8
      let rest ← parseLengths count
      pure (length :: rest)

/-- The length table, which has to be there before room is made for it. -/
def parseTable (count : ℕ) : Act Cursor RustBinary.Error (List ℕ) := do
  let tableSize ← okOr (checkedMul count 8) (.invalidFrame "parallel length table overflow")
  let cursor ← get
  call (Outcome.require (tableSize ≤ cursor.remaining) .unexpectedEnd)
  parseLengths count

/-- `try_fold` of the lengths with `checked_add`. -/
def totalLength : ℕ → List ℕ → Option ℕ
  | total, [] => some total
  | total, length :: lengths => do
      let next ← checkedAdd total length
      totalLength next lengths

/-- The loop over the payloads. -/
def takeAll : List ℕ → Act Cursor RustBinary.Error (List (List UInt8))
  | [] => pure []
  | length :: lengths => do
      let payload ← take length
      let rest ← takeAll lengths
      pure (payload :: rest)

/-- The payloads with these lengths; the reservation is for slices, of two words each. -/
def parsePayloads (lengths : List ℕ) : Act Cursor RustBinary.Error (List (List UInt8)) := do
  let payloadBytes ← okOr (totalLength 0 lengths) (.invalidFrame "parallel payload size overflow")
  let cursor ← get
  call (Outcome.require (payloadBytes ≤ cursor.remaining) .unexpectedEnd)
  call (Outcome.require (16 * lengths.length ≤ isizeMax) (.sizeLimit u64Max))
  takeAll lengths

/-- The frame up to its last payload. -/
def parseFrame (base : Config) : Act Cursor RustBinary.Error (List (List UInt8)) := do
  let count ← parseHeader
  call (base.enforceCollectionLimit count)
  let lengths ← parseTable count
  parsePayloads lengths

/-- The part of `deserialize_batch` in front of the decoding. -/
def parse (base : Config) (input : Slice 1 UInt8) :
    Outcome RustBinary.Error (List (List UInt8)) := do
  base.enforceByteLimit input.elems.length
  Cursor.whole (parseFrame base) base.trailing input

/-- `deserialize_batch`, for values of `size` bytes each. -/
def deserializeBatch (c : ParallelConfig) (codec : PayloadCodec T) (size : ℕ)
    (input : Slice 1 UInt8) : Outcome Error (List T) := do
  let payloads ← (parse c.base input).mapErr .base
  parallelMap size payloads c.workers fun payload => (codec.deserialize payload).mapErr .base

end ParallelConfig

end RustBinary.Parallel
