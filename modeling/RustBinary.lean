import RustBinary.Lib.Act
import RustBinary.Lib.Run
import RustBinary.Lib.Bytes
import RustBinary.Core.Config
import RustBinary.Core.Nextjson
import RustBinary.Cbor.Decoder
import RustBinary.Cbor.Primitive
import RustBinary.Cbor.Invariant
import RustBinary.Cbor.Steps
import RustBinary.Cbor.Backtrack
import RustBinary.Cbor.Head
import RustBinary.Cbor.Progress
import RustBinary.Cbor.Panic
import RustBinary.Cbor.Item
import RustBinary.Cbor.Reading
import RustBinary.Cbor.LengthForm
import RustBinary.Cbor.Datum
import RustBinary.Cbor.Skip
import RustBinary.Core.Canonical
import RustBinary.Native.Decoder
import RustBinary.Native.Primitive
import RustBinary.Native.Backtrack
import RustBinary.Lib.HeapTree
import RustBinary.Projections.Record
import RustBinary.Projections.Merkle
import RustBinary.Projections.Proof
import RustBinary.Projections.Tree
import RustBinary.Projections.Frontier
import RustBinary.Projections.Accepted
import RustBinary.Projections.Hashing
import RustBinary.Projections.Soundness
import RustBinary.Hash.Blake3
import RustBinary.Projections.Selection
import RustBinary.Projections.Aggregate
import RustBinary.Projections.Completeness
import RustBinary.Ibl.Table
import RustBinary.Ibl.Reconcile
import RustBinary.Aead.Poly1305
import RustBinary.Aead.Tag
import RustBinary.Core.Slice
import RustBinary.Delta.Updates
import RustBinary.Delta.Plan
import RustBinary.Delta.Atomicity
import RustBinary.Delta.Sync
import RustBinary.Entropy.Coder
import RustBinary.Entropy.RoundTrip
import RustBinary.Entropy.Frame
import RustBinary.Entropy.Acceptance
import RustBinary.Entropy.Compress
import RustBinary.Lib.Spells
import RustBinary.Lib.Tree
import RustBinary.Native.Wire
import RustBinary.Native.Reading
import RustBinary.Native.Value
import RustBinary.Native.Encoder
import RustBinary.Native.RoundTrip
import RustBinary.Hash.Tree
import RustBinary.Hash.Collisions
import RustBinary.Projections.Binding
import RustBinary.Archive.Header
import RustBinary.Lib.Interval
import RustBinary.Archive.Merkle
import RustBinary.Archive.Plan
import RustBinary.Archive.Replay
import RustBinary.Archive.Tree
import RustBinary.Archive.Proofs
import RustBinary.Archive.Completeness
import RustBinary.Archive.Soundness
import RustBinary.Archive.HeaderOnly
import RustBinary.Archive.Validate
import RustBinary.Archive.Mirror
import RustBinary.Archive.Writer
import RustBinary.Archive.Lengths
import RustBinary.Archive.Layout
import RustBinary.Archive.Placement
import RustBinary.Archive.Queue
import RustBinary.Archive.Contents
import RustBinary.Archive.ReadBack
import RustBinary.Archive.Accept
import RustBinary.Archive.Binding
import RustBinary.Archive.CheckBytes
import RustBinary.Archive.Reach
import RustBinary.Archive.Access
import RustBinary.Projections.Builder
import RustBinary.Projections.Typed
import RustBinary.Evolution.Frame
import RustBinary.Evolution.RoundTrip
import RustBinary.Adaptive.Prefix
import RustBinary.Adaptive.Integers
import RustBinary.Adaptive.Reading
import RustBinary.Adaptive.RoundTrip
import RustBinary.Bitpack.Bits
import RustBinary.Bitpack.Derive
import RustBinary.Bitpack.Scalar
import RustBinary.Bitpack.RoundTrip
import RustBinary.Lib.Lz77
import RustBinary.Lz.Codec
import RustBinary.Lz.Bits
import RustBinary.Lz.RoundTrip
import RustBinary.Archive.Termination
import RustBinary.Entropy.Work
import RustBinary.Ibl.Termination
import RustBinary.Ibl.Completeness
import RustBinary.Cbor.Integers
import RustBinary.Core.Codec
import RustBinary.Lib.Workers
import RustBinary.Parallel.Batch
import RustBinary.Parallel.Sequential
import RustBinary.Parallel.Acceptance
import RustBinary.Lib.Script
import RustBinary.Native.Sinks
import RustBinary.Compact.Encoder
import RustBinary.Compact.Sinks
import RustBinary.Compact.Decoder
import RustBinary.Compact.Bulk
import RustBinary.Compact.Replay
import RustBinary.Compact.RoundTrip
import RustBinary.Compact.Canonical
import RustBinary.Compact.Varints
import RustBinary.Adaptive.Strings
import RustBinary.Adaptive.Texts
import RustBinary.Adaptive.Sizes
import RustBinary.Bitpack.Limits
import RustBinary.Evolution.Errors
import RustBinary.Evolution.Versions
import RustBinary.Delta.Integers
import RustBinary.Delta.Work
import RustBinary.Ibl.Algebra
import RustBinary.Lz.Robust
import RustBinary.Lz.Greedy
import RustBinary.Compression.Frame
import RustBinary.Compression.Pipeline
import RustBinary.Lib.Matching
import RustBinary.Native.Agreement
import RustBinary.Native.Preflight
import RustBinary.Cbor.Encoder
import RustBinary.Cbor.Limits
import RustBinary.Cbor.RoundTrip
import RustBinary.Native.Skip
import RustBinary.Native.Limits
import RustBinary.Schema.Fingerprint
import RustBinary.Entropy.Bounds
import RustBinary.Entropy.Order
import RustBinary.Lib.TreeOrder
import RustBinary.Cbor.Deterministic
import RustBinary.Projections.Minimality
import RustBinary.Projections.FieldCount
import RustBinary.Aead.ChaCha
import RustBinary.Aead.Seal
import RustBinary.Encryption.Frame
import RustBinary.Encryption.Exact
import RustBinary.Lib.Lanes
import RustBinary.Adaptive.Kernels
import RustBinary.Native.Payload
import RustBinary.Native.Image
import RustBinary.Lib.Framing
import RustBinary.Trust.Session
import RustBinary.Lib.Saturating
import RustBinary.Bounded.Types
import RustBinary.Bounded.Cost
import RustBinary.Bounded.Decode
import RustBinary.Bounded.Allocation
import RustBinary.Native.Format
import RustBinary.Encryption.Stack
import RustBinary.Schema.Separation
import RustBinary.Schema.Frame
import RustBinary.Trust.Channel
import RustBinary.Lib.Reader
import RustBinary.Cbor.Format
import RustBinary.Entropy.Schema
import RustBinary.Adapters.Readers
