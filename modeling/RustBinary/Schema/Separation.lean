import RustBinary.Schema.Fingerprint
import Mathlib.Data.Int.ModEq

/-!
# What a fingerprint keeps apart

The prime of the hash is odd and `xor` loses nothing, so one round of the hash can be undone when
its byte is known, and its byte when the hash in front of it is.  Hashes that differ are therefore
kept apart by whatever is fed behind them, and so are bytes that differ in one place.
-/

namespace RustBinary.Schema

open Lib

variable {hash hash' : ℕ} {byte byte' : UInt8} {bytes : List UInt8}

lemma hashByte_lt (hash : ℕ) (byte : UInt8) : hashByte hash byte < 2 ^ 64 :=
  Nat.mod_lt _ (by decide)

/-- The product with the prime can be undone, modulo `2 ^ 64`. -/
lemma mul_fnvPrime_inj {a b : ℕ} (ha : a < 2 ^ 64) (hb : b < 2 ^ 64)
    (h : a * fnvPrime % 2 ^ 64 = b * fnvPrime % 2 ^ 64) : a = b := by
  have hodd : Nat.gcd (2 ^ 64) fnvPrime = 1 := by decide
  have hmod : a ≡ b [MOD 2 ^ 64] := Nat.ModEq.cancel_right_of_coprime hodd h
  rwa [Nat.ModEq, Nat.mod_eq_of_lt ha, Nat.mod_eq_of_lt hb] at hmod

lemma xor_byte_lt (h : hash < 2 ^ 64) (byte : UInt8) : hash ^^^ byte.toNat < 2 ^ 64 :=
  Nat.xor_lt_two_pow h (byte.toNat_lt.trans (by decide))

/-- A round keeps hashes apart. -/
lemma hashByte_inj (h : hash < 2 ^ 64) (h' : hash' < 2 ^ 64)
    (heq : hashByte hash byte = hashByte hash' byte) : hash = hash' :=
  xor_inj.mp (mul_fnvPrime_inj (xor_byte_lt h byte) (xor_byte_lt h' byte) heq)

/-- A round keeps bytes apart. -/
lemma hashByte_byte_inj (h : hash < 2 ^ 64) (heq : hashByte hash byte = hashByte hash byte') :
    byte = byte' := by
  have hxor := mul_fnvPrime_inj (xor_byte_lt h byte) (xor_byte_lt h byte') heq
  rw [Nat.xor_comm, Nat.xor_comm hash] at hxor
  exact UInt8.toNat_inj.mp (xor_inj.mp hxor)

lemma hashBytes_lt (h : hash < 2 ^ 64) (bytes : List UInt8) : hashBytes hash bytes < 2 ^ 64 := by
  induction bytes generalizing hash with
  | nil => exact h
  | cons byte bytes ih => exact ih (hashByte_lt hash byte)

/-- The same bytes keep hashes apart. -/
lemma hashBytes_inj (h : hash < 2 ^ 64) (h' : hash' < 2 ^ 64)
    (heq : hashBytes hash bytes = hashBytes hash' bytes) : hash = hash' := by
  induction bytes generalizing hash hash' with
  | nil => exact heq
  | cons byte bytes ih =>
      exact hashByte_inj h h' (ih (hashByte_lt hash byte) (hashByte_lt hash' byte) heq)

/-- The bytes differ in one place. -/
def OneByteApart (bs bs' : List UInt8) : Prop :=
  ∃ pre byte byte' post, bs = pre ++ byte :: post ∧ bs' = pre ++ byte' :: post ∧ byte ≠ byte'

/-- A hash keeps bytes apart that differ in one place. -/
lemma hashBytes_ne_of_oneByteApart (h : hash < 2 ^ 64) {bs bs' : List UInt8}
    (hapart : OneByteApart bs bs') : hashBytes hash bs ≠ hashBytes hash bs' := by
  obtain ⟨pre, byte, byte', post, rfl, rfl, hne⟩ := hapart
  intro heq
  rw [hashBytes, hashBytes, List.foldl_append, List.foldl_append, List.foldl_cons,
    List.foldl_cons] at heq
  exact hne (hashByte_byte_inj (hashBytes_lt h pre)
    (hashBytes_inj (hashByte_lt _ byte) (hashByte_lt _ byte') heq))

/-! ## Configurations -/

/-- Lists of words that differ in one small word differ in one byte. -/
lemma oneByteApart_words (pre : List ℕ) {post : List ℕ} {v v' : ℕ} (hv : v < 256)
    (hv' : v' < 256) (hne : v ≠ v') : OneByteApart ((pre ++ v :: post).flatMap (leBytes 8))
      ((pre ++ v' :: post).flatMap (leBytes 8)) := by
  have hword : ∀ n < 256, leBytes 8 n = UInt8.ofNat n :: List.replicate 7 0 := by
    intro n hn
    rw [leBytes, Nat.div_eq_of_lt hn]
    rfl
  refine ⟨pre.flatMap (leBytes 8), UInt8.ofNat v, UInt8.ofNat v',
    List.replicate 7 0 ++ post.flatMap (leBytes 8), ?_, ?_, ?_⟩
  · rw [List.flatMap_append, List.flatMap_cons, hword v hv, List.cons_append]
  · rw [List.flatMap_append, List.flatMap_cons, hword v' hv', List.cons_append]
  · intro heq
    have hnat := congrArg UInt8.toNat heq
    rw [UInt8.toNat_ofNat_of_lt' hv, UInt8.toNat_ofNat_of_lt' hv'] at hnat
    exact hne hnat

/-- Configurations that differ in the byte order, in the integers or in the policy for trailing
bytes, and in nothing else that a fingerprint sees. -/
def OneFieldApart (a b : Config) : Prop :=
  optionValue a.limit = optionValue b.limit ∧
    optionValue a.collectionLimit = optionValue b.collectionLimit ∧
    (a.endian ≠ b.endian ∧ a.integers = b.integers ∧ a.trailing = b.trailing ∨
      a.endian = b.endian ∧ a.integers ≠ b.integers ∧ a.trailing = b.trailing ∨
      a.endian = b.endian ∧ a.integers = b.integers ∧ a.trailing ≠ b.trailing)

lemma integersValue_lt (a : IntEncoding) : integersValue a < 256 := by cases a <;> decide

lemma trailingValue_lt (a : TrailingBytes) : trailingValue a < 256 := by cases a <;> decide

variable [Target]

lemma endianValue_lt (a : Endian) : endianValue a < 256 := by
  rw [endianValue.eq_def]
  split
  · decide
  · decide
  · split <;> decide

lemma oneByteApart_of_oneFieldApart {a b : Config} (h : OneFieldApart a b) :
    OneByteApart (fedBytes a) (fedBytes b) := by
  obtain ⟨hlimit, hcollection, hfield⟩ := h
  rw [fedBytes, fedBytes, configWords, configWords, hlimit, hcollection]
  rcases hfield with ⟨hne, hintegers, htrailing⟩ | ⟨hendian, hne, htrailing⟩ |
    ⟨hendian, hintegers, hne⟩
  · rw [hintegers, htrailing]
    exact oneByteApart_words [0x7275737462696e01] (endianValue_lt _) (endianValue_lt _)
      (mt endianValue_inj.mp hne)
  · rw [hendian, htrailing]
    exact oneByteApart_words [0x7275737462696e01, endianValue b.endian]
      (integersValue_lt _) (integersValue_lt _) (mt integersValue_inj.mp hne)
  · rw [hendian, hintegers]
    exact oneByteApart_words [0x7275737462696e01, endianValue b.endian,
      integersValue b.integers] (trailingValue_lt _) (trailingValue_lt _)
      (mt trailingValue_inj.mp hne)

/-- Two types under one configuration have different fingerprints if they have different hashes. -/
lemma configFingerprint_inj {config : Config} (h : hash < 2 ^ 64) (h' : hash' < 2 ^ 64)
    (heq : configFingerprint hash config = configFingerprint hash' config) : hash = hash' := by
  rw [configFingerprint_eq, configFingerprint_eq] at heq
  exact hashBytes_inj h h' heq

lemma configFingerprint_lt (h : hash < 2 ^ 64) (config : Config) :
    configFingerprint hash config < 2 ^ 64 := by
  rw [configFingerprint_eq]
  exact hashBytes_lt h _

/-- One type under two configurations has different fingerprints if what they feed differs in one
byte. -/
lemma configFingerprint_ne {a b : Config} (h : hash < 2 ^ 64)
    (hapart : OneByteApart (fedBytes a) (fedBytes b)) :
    configFingerprint hash a ≠ configFingerprint hash b := by
  rw [configFingerprint_eq, configFingerprint_eq]
  exact hashBytes_ne_of_oneByteApart h hapart

end RustBinary.Schema
