import Mathlib
import RustBinary.Core.Config
import RustBinary.Lib.Bytes
import RustBinary.Lib.Outcome

/-!
# The archive envelope

The header of an archive file, its parser, and the ranges of the payload and of the hash
section.  The integers of the header are machine words.
-/

namespace RustBinary.Archive

open Lib Lib.Outcome

abbrev Digest : Type := Vector UInt8 32

inductive ArchiveError where
  /-- The configured complete-file limit was exceeded. -/
  | sizeLimit (limit actual : ℕ)
  /-- The envelope is truncated or violates the format contract. -/
  | invalidHeader (reason : String)
  | invalidSchemaId
  | schemaMismatch (expected actual : UInt64)
  | unsupportedAlignment (required supported : ℕ)
  | validation (message : String)
  | merkle (reason : String)
deriving DecidableEq, Repr

abbrev Result (α : Type) : Type := Outcome ArchiveError α

def magic : List UInt8 := [0x52, 0x42, 0x41, 0x52, 0x43, 0x30, 0x30, 0x34]

def formatVersion : ℕ := 4

/-- Merkle verification is mandatory in this version. -/
def formatFlags : ℕ := 0x0001

def headerLen : ℕ := 128

/-- Byte offset of the payload. -/
def payloadOffset : ℕ := headerLen

def maxArchiveAlignment : ℕ := 64

/-- Resource policy applied before allocation, validation or mapping. -/
structure ArchiveLimits where
  maxFileSize : ℕ
  merkleBlockSize : UInt32

/-- `ArchiveLimits::new`. -/
def ArchiveLimits.new : ArchiveLimits where
  maxFileSize := 1024 * 1024 * 1024
  merkleBlockSize := 4096

/-- Parsed envelope metadata. -/
structure ArchiveHeader where
  schemaId : UInt64
  payloadLen : UInt64
  fileLen : UInt64
  blockSize : UInt32
  blockCount : UInt64
  root : Digest
  hashOffset : UInt64
  hashLen : UInt64
deriving DecidableEq

/-- `check_size_limit`. -/
def checkSizeLimit (actual : ℕ) (limits : ArchiveLimits) : Result Unit :=
  require (actual ≤ limits.maxFileSize) (.sizeLimit limits.maxFileSize actual)

/-- `is_power_of_two`. -/
def isPowerOfTwo (n : ℕ) : Bool := 2 ^ n.log2 == n

/-! ## The height of the tree -/

/-- The loop of `tree_height`; `size` is a 64-bit word, so that it ends up as zero, and stays
zero, when it is shifted beyond the count. -/
def treeHeightLoop (blockCount : ℕ) : ℕ → ℕ → ℕ → Result ℕ
  | 0, _, _ => .diverge
  | fuel + 1, size, height =>
      if size < blockCount then treeHeightLoop blockCount fuel (size * 2 % 2 ^ 64) (height + 1)
      else .ok height

/-- `tree_height`: the levels above the leaves of a complete tree. -/
def treeHeight (blockCount : ℕ) : Result ℕ :=
  if blockCount ≤ 1 then .ok 0 else treeHeightLoop blockCount 65 1 0

lemma treeHeightLoop_zero {blockCount : ℕ} (h : 0 < blockCount) (fuel height : ℕ) :
    treeHeightLoop blockCount fuel 0 height = .diverge := by
  induction fuel generalizing height with
  | zero => rfl
  | succ fuel ih =>
      rw [treeHeightLoop, if_pos h]
      exact ih _

/-- The height is that of the smallest complete tree with enough leaves. -/
lemma treeHeightLoop_eq_ok {blockCount height out : ℕ} (hpos : 0 < blockCount)
    (fuel : ℕ) (hfuel : fuel + height = 65) (hlow : height = 0 ∨ 2 ^ (height - 1) < blockCount)
    (hheight : height ≤ 63) :
    treeHeightLoop blockCount fuel (2 ^ height) height = .ok out ↔
      blockCount ≤ 2 ^ out ∧ (out = 0 ∨ 2 ^ (out - 1) < blockCount) ∧ height ≤ out ∧ out ≤ 63 := by
  induction fuel generalizing height with
  | zero => omega
  | succ fuel ih =>
      rw [treeHeightLoop]
      split
      · next hlt =>
          rcases Nat.lt_or_ge height 63 with hsmall | hlarge
          · have hnext : 2 ^ height * 2 % 2 ^ 64 = 2 ^ (height + 1) := by
              rw [← pow_succ]
              exact Nat.mod_eq_of_lt (Nat.pow_lt_pow_right (by decide) (by omega))
            rw [hnext, ih (by omega) (.inr (by rwa [Nat.add_sub_cancel])) (by omega)]
            constructor
            · rintro ⟨h₁, h₂, h₃, h₄⟩
              exact ⟨h₁, h₂, by omega, h₄⟩
            · rintro ⟨h₁, h₂, h₃, h₄⟩
              refine ⟨h₁, h₂, ?_, h₄⟩
              -- the height is not the current one, whose tree is too small
              rcases Nat.eq_or_lt_of_le h₃ with rfl | hlt'
              · omega
              · exact hlt'
          · obtain rfl : height = 63 := by omega
            have hzero : 2 ^ 63 * 2 % 2 ^ 64 = 0 := by decide
            rw [hzero, treeHeightLoop_zero hpos]
            constructor
            · intro hfalse
              simp at hfalse
            · rintro ⟨h₁, -, h₃, h₄⟩
              obtain rfl : out = 63 := by omega
              omega
      · next hle =>
          rw [Outcome.ok.injEq]
          constructor
          · rintro rfl
            exact ⟨by omega, hlow, Nat.le_refl _, hheight⟩
          · rintro ⟨h₁, h₂, h₃, -⟩
            rcases Nat.eq_or_lt_of_le h₃ with heq | hlt
            · exact heq
            · exfalso
              have hmono : 2 ^ height ≤ 2 ^ (out - 1) := Nat.pow_le_pow_right (by decide) (by omega)
              rcases h₂ with h₂ | h₂ <;> omega

lemma treeHeight_eq_ok {blockCount out : ℕ} :
    treeHeight blockCount = .ok out ↔
      blockCount ≤ 2 ^ out ∧ (out = 0 ∨ 2 ^ (out - 1) < blockCount) ∧ out ≤ 63 := by
  rw [treeHeight]
  split
  · next h =>
      rw [Outcome.ok.injEq]
      constructor
      · rintro rfl
        exact ⟨h, .inl rfl, by decide⟩
      · rintro ⟨-, h₂, -⟩
        rcases h₂ with h₂ | h₂
        · exact h₂.symm
        · have := Nat.two_pow_pos (out - 1)
          omega
  · next h =>
      have hloop : treeHeightLoop blockCount 65 (2 ^ 0) 0 = .ok out ↔ _ :=
        treeHeightLoop_eq_ok (by omega) 65 rfl (.inl rfl) (by decide)
      rw [pow_zero] at hloop
      rw [hloop]
      simp

/-- A count that is not too large has a height. -/
lemma exists_treeHeight {blockCount : ℕ} (h : blockCount ≤ 2 ^ 63) :
    ∃ height, treeHeight blockCount = .ok height := by
  obtain ⟨height, hheight⟩ : ∃ height, height = Nat.clog 2 blockCount := ⟨_, rfl⟩
  refine ⟨height, treeHeight_eq_ok.mpr ⟨?_, ?_, ?_⟩⟩
  · rw [hheight]
    exact Nat.le_pow_clog (by decide) _
  · rcases Nat.eq_zero_or_pos height with hzero | hpos
    · exact .inl hzero
    · right
      rw [hheight]
      refine Nat.pow_pred_clog_lt_self (by decide) ?_
      by_contra hle
      rw [hheight, Nat.clog_of_right_le_one (by omega)] at hpos
      omega
  · rw [hheight]
    exact (Nat.clog_le_iff_le_pow (by decide)).mpr h

/-! ## Parsing -/

/-- `read_u16`, `read_u32` and `read_u64`. -/
def readLe (bytes : List UInt8) (offset width : ℕ) : Result ℕ := do
  let value ← orPanic (slice bytes offset (offset + width))
  pure (leNat value)

/-- `copy_from_slice` into a digest. -/
def readDigest (bytes : List UInt8) (position : ℕ) : Result Digest :=
  if h : position + 32 ≤ bytes.length then
    .ok ⟨((bytes.drop position).take 32).toArray, by simp; omega⟩
  else .panic

/-- The geometry checks at the end of `parse_header`: the hash section has one hash for each
internal node of the padded tree. -/
def checkHashLen (blockCount hashLen : ℕ) (overflow mismatch : ArchiveError) : Result Unit := do
  let height ← treeHeight blockCount
  let expectedHashLen ← okOr (if (2 ^ height - 1) * 32 ≤ u64Max then some ((2 ^ height - 1) * 32)
    else none) overflow
  require (hashLen = expectedHashLen) mismatch

/-- `parse_header`. -/
def parseHeader (file : Input) (limits : ArchiveLimits) : Result ArchiveHeader := do
  let bytes := file.bytes
  let actual := bytes.length
  checkSizeLimit actual limits
  require (headerLen ≤ bytes.length) (.invalidHeader "file is shorter than the envelope")
  require (bytes.take 8 = magic) (.invalidHeader "magic does not match")
  let version ← readLe bytes 8 2
  require (version = formatVersion) (.invalidHeader "unsupported format version")
  let flags ← readLe bytes 10 2
  require (flags = formatFlags) (.invalidHeader "format flags do not match")
  let declaredHeaderLen ← readLe bytes 12 4
  require (declaredHeaderLen = headerLen) (.invalidHeader "header length does not match")
  let schemaId ← readLe bytes 16 8
  require (schemaId ≠ 0) (.invalidHeader "schema identifier is zero")
  let payloadLen ← readLe bytes 24 8
  let declaredOffset ← readLe bytes 32 8
  require (declaredOffset = payloadOffset) (.invalidHeader "payload offset does not match")
  let fileLen ← readLe bytes 40 8
  require (fileLen = actual) (.invalidHeader "declared file length does not match")
  let payloadEnd ← okOr (checkedAdd headerLen payloadLen)
    (.invalidHeader "declared payload length overflows")
  require (payloadEnd ≤ fileLen) (.invalidHeader "declared payload length exceeds the file length")
  let blockSize ← readLe bytes 48 4
  require (blockSize ≠ 0 ∧ isPowerOfTwo blockSize)
    (.invalidHeader "Merkle block size is not a power of two")
  require (32 ≤ blockSize) (.invalidHeader "Merkle block size is smaller than the minimum")
  let blockCount ← readLe bytes 52 8
  require (blockCount ≠ 0) (.invalidHeader "Merkle block count is zero")
  let root ← readDigest bytes 60
  let hashOffset ← readLe bytes 92 8
  let hashLen ← readLe bytes 100 8
  require (∀ byte ∈ (bytes.drop 108).take 20, byte = 0)
    (.invalidHeader "reserved header bytes are non-zero")
  require (hashOffset = payloadEnd)
    (.invalidHeader "hash section offset does not follow the payload")
  let sectionEnd ← okOr (checkedAdd hashOffset hashLen)
    (.invalidHeader "hash section length overflows")
  require (sectionEnd = fileLen) (.invalidHeader "declared hash section length does not match")
  checkHashLen blockCount hashLen (.invalidHeader "hash section length overflows")
    (.invalidHeader "hash section length does not match the Merkle tree")
  pure {
    schemaId := .ofNat schemaId
    payloadLen := .ofNat payloadLen
    fileLen := .ofNat fileLen
    blockSize := .ofNat blockSize
    blockCount := .ofNat blockCount
    root := root
    hashOffset := .ofNat hashOffset
    hashLen := .ofNat hashLen }

/-- `ranges_from_header`: the payload and the hash section, each as start and end. -/
def rangesFromHeader (fileLen : ℕ) (header : ArchiveHeader) : Result ((ℕ × ℕ) × (ℕ × ℕ)) := do
  let payloadEnd ← okOr (checkedAdd payloadOffset header.payloadLen.toNat)
    (.invalidHeader "payload range overflows usize")
  let hashEnd ← okOr (checkedAdd payloadEnd header.hashLen.toNat)
    (.invalidHeader "hash section range overflows usize")
  require (payloadEnd ≤ fileLen ∧ hashEnd ≤ fileLen)
    (.invalidHeader "declared ranges exceed the file length")
  require (header.hashOffset.toNat = payloadEnd)
    (.invalidHeader "hash section offset does not follow the payload")
  pure ((payloadOffset, payloadEnd), (payloadEnd, hashEnd))

end RustBinary.Archive
