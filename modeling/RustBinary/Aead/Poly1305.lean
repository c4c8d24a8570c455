import RustBinary.Lib.Bytes
import RustBinary.Lib.Limbs
import Mathlib

/-!
# Poly1305

The one-time authenticator of the encryption layer.  Words of 32, 64 and 128 bits are natural
numbers: a sum or a product of 64-bit words is `checked`, and casts and shifts cut off.
-/

namespace RustBinary.Aead

open Lib Lib.Outcome

/-! ## The code -/

/-- Five limbs of 26 bits, least significant first. -/
structure Limbs where
  l0 : ℕ
  l1 : ℕ
  l2 : ℕ
  l3 : ℕ
  l4 : ℕ
deriving DecidableEq, Repr

/-- The positions of a key of 16 bytes are the numbers modulo 16. -/
local instance neZeroSixteen : NeZero 16 := ⟨by decide⟩

/-- Applies the Poly1305 `r` clamp. -/
def clampR (r : Vector UInt8 16) : Vector UInt8 16 :=
  Vector.ofFn fun i =>
    if i = 3 ∨ i = 7 ∨ i = 11 ∨ i = 15 then r.get i &&& 0x0f
    else if i = 4 ∨ i = 8 ∨ i = 12 then r.get i &&& 0xfc
    else r.get i

/-- `(u32::from_le_bytes([a, b, c, d]) >> shift) & 0x3ff_ffff`. -/
def limb (a b c d : UInt8) (shift : ℕ) : ℕ := (leNat [a, b, c, d] >>> shift) &&& 0x3ffffff

/-- The limbs of the clamped `r`. -/
def limbsOfKey (r : Vector UInt8 16) : Limbs :=
  let r0 := limb (r.get 0) (r.get 1) (r.get 2) (r.get 3) 0
  let r1 := limb (r.get 3) (r.get 4) (r.get 5) (r.get 6) 2
  let r2 := limb (r.get 6) (r.get 7) (r.get 8) (r.get 9) 4
  let r3 := limb (r.get 9) (r.get 10) (r.get 11) (r.get 12) 6
  let r4 := limb (r.get 12) (r.get 13) (r.get 14) (r.get 15) 8
  ⟨r0 &&& 0x3ffffff, r1 &&& 0x3ffffff, r2 &&& 0x3ffffff, r3 &&& 0x3ffffff, r4 &&& 0x3ffffff⟩

/-- The limbs of a block; its 17th byte is bit 24 of the last limb. -/
def limbsOfBlock (block : Vector UInt8 17) : Limbs where
  l0 := limb (block.get 0) (block.get 1) (block.get 2) (block.get 3) 0
  l1 := limb (block.get 3) (block.get 4) (block.get 5) (block.get 6) 2
  l2 := limb (block.get 6) (block.get 7) (block.get 8) (block.get 9) 4
  l3 := limb (block.get 9) (block.get 10) (block.get 11) (block.get 12) 6
  l4 := limb (block.get 12) (block.get 13) (block.get 14) (block.get 15) 8
    ||| (block.get 16).toNat <<< 24

def addU64 (a b : ℕ) : Outcome Unit ℕ := checked 64 (a + b)

def mulU64 (a b : ℕ) : Outcome Unit ℕ := checked 64 (a * b)

/-- The sum of five products, from the left. -/
def dotU64 (x y : Limbs) : Outcome Unit ℕ := do
  let p0 ← mulU64 x.l0 y.l0
  let p1 ← mulU64 x.l1 y.l1
  let sum ← addU64 p0 p1
  let p2 ← mulU64 x.l2 y.l2
  let sum ← addU64 sum p2
  let p3 ← mulU64 x.l3 y.l3
  let sum ← addU64 sum p3
  let p4 ← mulU64 x.l4 y.l4
  addU64 sum p4

/-- Carry-propagates the columns, folding the top of the last one back as `* 5`. -/
def carryLimbs (d : Limbs) : Outcome Unit Limbs := do
  let carry := d.l0 >>> 26
  let h0 := d.l0 &&& 0x3ffffff
  let carry ← addU64 carry d.l1
  let h1 := carry &&& 0x3ffffff
  let carry := carry >>> 26
  let carry ← addU64 carry d.l2
  let h2 := carry &&& 0x3ffffff
  let carry := carry >>> 26
  let carry ← addU64 carry d.l3
  let h3 := carry &&& 0x3ffffff
  let carry := carry >>> 26
  let carry ← addU64 carry d.l4
  let h4 := carry &&& 0x3ffffff
  let carry := carry >>> 26
  -- what is left is the value above bit 130
  let fold ← mulU64 carry 5
  let h0 ← addU64 h0 fold
  let carry := h0 >>> 26
  let h0 := h0 &&& 0x3ffffff
  let h1 ← addU64 h1 carry
  let carry := h1 >>> 26
  let h1 := h1 &&& 0x3ffffff
  let h2 ← addU64 h2 carry
  ok ⟨h0 % 2 ^ 32, h1 % 2 ^ 32, h2 % 2 ^ 32, h3 % 2 ^ 32, h4 % 2 ^ 32⟩

/-- `poly1305_accumulate`. -/
def poly1305Accumulate (h : Limbs) (block : Vector UInt8 17) (r : Limbs) : Outcome Unit Limbs := do
  let b := limbsOfBlock block
  let h0 ← addU64 h.l0 b.l0
  let h1 ← addU64 h.l1 b.l1
  let h2 ← addU64 h.l2 b.l2
  let h3 ← addU64 h.l3 b.l3
  let h4 ← addU64 h.l4 b.l4
  let r1x5 ← mulU64 5 r.l1
  let r2x5 ← mulU64 5 r.l2
  let r3x5 ← mulU64 5 r.l3
  let r4x5 ← mulU64 5 r.l4
  let d0 ← dotU64 ⟨h0, h1, h2, h3, h4⟩ ⟨r.l0, r4x5, r3x5, r2x5, r1x5⟩
  let d1 ← dotU64 ⟨h0, h1, h2, h3, h4⟩ ⟨r.l1, r.l0, r4x5, r3x5, r2x5⟩
  let d2 ← dotU64 ⟨h0, h1, h2, h3, h4⟩ ⟨r.l2, r.l1, r.l0, r4x5, r3x5⟩
  let d3 ← dotU64 ⟨h0, h1, h2, h3, h4⟩ ⟨r.l3, r.l2, r.l1, r.l0, r4x5⟩
  let d4 ← dotU64 ⟨h0, h1, h2, h3, h4⟩ ⟨r.l4, r.l3, r.l2, r.l1, r.l0⟩
  carryLimbs ⟨d0, d1, d2, d3, d4⟩

/-- The chunks of 16 bytes, and what remains after them. -/
def chunks : ℕ → List UInt8 → List (List UInt8)
  | 0, _ => []
  | n + 1, msg => if msg.isEmpty then [] else msg.take 16 :: chunks n (msg.drop 16)

/-- The block of a chunk: its bytes, a one, and zeros. -/
def blockOf (chunk : List UInt8) : Vector UInt8 17 :=
  Vector.ofFn fun i => (chunk ++ [1]).getD i 0

/-- The accumulator after some chunks. -/
def accumulateChunks (r : Limbs) : Limbs → List (List UInt8) → Outcome Unit Limbs
  | h, [] => ok h
  | h, chunk :: rest => do
      let h ← poly1305Accumulate h (blockOf chunk) r
      accumulateChunks r h rest

def shlU128 (a k : ℕ) : ℕ := (a <<< k) % 2 ^ 128

/-- `poly1305_mac`. -/
def poly1305Mac (r s : Vector UInt8 16) (msg : List UInt8) : Outcome Unit (List UInt8) := do
  let s0 := leNat [s.get 0, s.get 1, s.get 2, s.get 3]
  let s1 := leNat [s.get 4, s.get 5, s.get 6, s.get 7]
  let s2 := leNat [s.get 8, s.get 9, s.get 10, s.get 11]
  let s3 := leNat [s.get 12, s.get 13, s.get 14, s.get 15]
  let h ← accumulateChunks (limbsOfKey r) ⟨0, 0, 0, 0, 0⟩ (chunks msg.length msg)
  let hLow := h.l0 ||| shlU128 h.l1 26 ||| shlU128 h.l2 52 ||| shlU128 h.l3 78
    ||| shlU128 (h.l4 &&& 0x00ffffff) 104
  let s128 := s0 ||| shlU128 s1 32 ||| shlU128 s2 64 ||| shlU128 s3 96
  let sum := (hLow + s128) % 2 ^ 128
  ok (leBytes 16 sum)

end RustBinary.Aead
