import RustBinary.Core.Config
import RustBinary.Lib.Bytes

/-!
# Configuration fingerprints

A configuration extends a schema hash with one word for each of its fields but the depth limit.
What reaches the hash is the bytes of these words, so two configurations can only be told apart
by the words.  The word of a missing limit is also that of the limit `2 ^ 63`.
-/

namespace RustBinary.Schema

open Lib

/-! ## The hash -/

def fnvPrime : ℕ := 0x00000100000001b3

/-- One round of `hash_bytes`. -/
def hashByte (hash : ℕ) (byte : UInt8) : ℕ := (hash ^^^ byte.toNat) * fnvPrime % 2 ^ 64

/-- Extends a schema hash with an exact byte sequence. -/
def hashBytes (hash : ℕ) (bytes : List UInt8) : ℕ := bytes.foldl hashByte hash

/-- Extends a schema hash with one little-endian `u64` domain value. -/
def hashU64 (hash value : ℕ) : ℕ := hashBytes hash (leBytes 8 value)

def optionValue : Option ℕ → ℕ
  | some value => value ^^^ 2 ^ 63
  | none => 0

def integersValue : IntEncoding → ℕ
  | .fixed => 1
  | .variable => 2

def trailingValue : TrailingBytes → ℕ
  | .allow => 1
  | .reject => 2

section Words

variable [Target]

def endianValue : Endian → ℕ
  | .little => 1
  | .big => 2
  | .native => if Target.littleEndian then 3 else 4

def configFingerprint (hash : ℕ) (config : Config) : ℕ :=
  let hash := hashU64 hash 0x7275737462696e01
  let hash := hashU64 hash (endianValue config.endian)
  let hash := hashU64 hash (integersValue config.integers)
  let hash := hashU64 hash (trailingValue config.trailing)
  let hash := hashU64 hash (optionValue config.limit)
  hashU64 hash (optionValue config.collectionLimit)

/-! ## What reaches the hash -/

/-- The words of a configuration. -/
def configWords (config : Config) : List ℕ :=
  [0x7275737462696e01, endianValue config.endian, integersValue config.integers,
    trailingValue config.trailing, optionValue config.limit, optionValue config.collectionLimit]

/-- The bytes that `config_fingerprint` feeds to its hash. -/
def fedBytes (config : Config) : List UInt8 := (configWords config).flatMap (leBytes 8)

lemma configFingerprint_eq (hash : ℕ) (config : Config) :
    configFingerprint hash config = hashBytes hash (fedBytes config) := by
  simp only [configFingerprint, fedBytes, configWords, hashU64, hashBytes, List.flatMap_cons,
    List.flatMap_nil, List.append_nil, List.foldl_append]

/-- The limits of the configuration are of 64 bits, as in the code. -/
structure Bounded (config : Config) : Prop where
  limit : ∀ l, config.limit = some l → l ≤ u64Max
  collectionLimit : ∀ l, config.collectionLimit = some l → l ≤ u64Max

/-- Two limits with one word: a missing limit is written as the limit `2 ^ 63`. -/
def Confused (a b : Option ℕ) : Prop :=
  a = b ∨ a = none ∧ b = some (2 ^ 63) ∨ a = some (2 ^ 63) ∧ b = none

omit [Target] in
/-- Flipping the highest bit loses nothing. -/
lemma xor_inj {l l' m : ℕ} : l ^^^ m = l' ^^^ m ↔ l = l' := by
  refine ⟨fun h => ?_, fun h => by rw [h]⟩
  calc l = l ^^^ m ^^^ m := by rw [Nat.xor_assoc, Nat.xor_self, Nat.xor_zero]
    _ = l' ^^^ m ^^^ m := by rw [h]
    _ = l' := by rw [Nat.xor_assoc, Nat.xor_self, Nat.xor_zero]

omit [Target] in
lemma optionValue_eq_iff {a b : Option ℕ} : optionValue a = optionValue b ↔ Confused a b := by
  have hzero : ∀ l : ℕ, l ^^^ 2 ^ 63 = 0 ↔ l = 2 ^ 63 := by
    intro l
    rw [← Nat.xor_self (2 ^ 63), xor_inj]
  rcases a with _ | l <;> rcases b with _ | l'
  · simp [Confused]
  · simp only [optionValue, Confused, reduceCtorEq, Option.some.injEq, false_or, true_and,
      false_and, or_false]
    rw [eq_comm, hzero]
  · simp only [optionValue, Confused, reduceCtorEq, Option.some.injEq, false_or, and_true,
      false_and]
    exact hzero l
  · simp only [optionValue, Confused, reduceCtorEq, Option.some.injEq, false_and, and_false,
      or_false]
    exact xor_inj

omit [Target] in
lemma optionValue_lt {a : Option ℕ} (h : ∀ l, a = some l → l ≤ u64Max) :
    optionValue a < 256 ^ 8 := by
  rcases a with _ | l
  · exact Nat.pow_pos (by decide)
  · have hl : l < 2 ^ 64 := Nat.lt_succ_of_le (h l rfl)
    have hxor : l ^^^ 2 ^ 63 < 2 ^ 64 := Nat.xor_lt_two_pow hl (by decide)
    exact hxor.trans_eq (by decide)

lemma words_lt {config : Config} (h : Bounded config) :
    ∀ word ∈ configWords config, word < 256 ^ 8 := by
  intro word hword
  simp only [configWords, List.mem_cons, List.not_mem_nil, or_false] at hword
  rcases hword with rfl | rfl | rfl | rfl | rfl | rfl
  · decide
  · rw [endianValue.eq_def]
    split
    · decide
    · decide
    · split <;> decide
  · cases config.integers <;> decide
  · cases config.trailing <;> decide
  · exact optionValue_lt h.limit
  · exact optionValue_lt h.collectionLimit

omit [Target] in
/-- Words of one width are told apart by their bytes. -/
lemma flatMap_leBytes_inj {width : ℕ} : ∀ {as bs : List ℕ}, as.length = bs.length →
    (∀ a ∈ as, a < 256 ^ width) → (∀ b ∈ bs, b < 256 ^ width) →
    as.flatMap (leBytes width) = bs.flatMap (leBytes width) → as = bs
  | [], [], _, _, _, _ => rfl
  | a :: as, b :: bs, hlen, ha, hb, h => by
      rw [List.flatMap_cons, List.flatMap_cons] at h
      obtain ⟨hword, hrest⟩ := List.append_inj h (by rw [length_leBytes, length_leBytes])
      have hab : a = b :=
        (leBytes_inj (ha a List.mem_cons_self) (hb b List.mem_cons_self)).mp hword
      rw [hab, flatMap_leBytes_inj (Nat.succ.inj hlen)
        (fun x hx => ha x (List.mem_cons_of_mem a hx))
        (fun x hx => hb x (List.mem_cons_of_mem b hx)) hrest]

lemma endianValue_inj {a b : Endian} : endianValue a = endianValue b ↔ a = b := by
  constructor
  · cases htarget : Target.littleEndian <;> cases a <;> cases b <;> simp [endianValue, htarget]
  · rintro rfl
    rfl

omit [Target] in
lemma integersValue_inj {a b : IntEncoding} : integersValue a = integersValue b ↔ a = b := by
  cases a <;> cases b <;> decide

omit [Target] in
lemma trailingValue_inj {a b : TrailingBytes} : trailingValue a = trailingValue b ↔ a = b := by
  cases a <;> cases b <;> decide

/-- Two configurations reach the hash as the same bytes. -/
lemma fedBytes_eq_iff {a b : Config} (ha : Bounded a) (hb : Bounded b) :
    fedBytes a = fedBytes b ↔ a.endian = b.endian ∧ a.integers = b.integers ∧
      a.trailing = b.trailing ∧ Confused a.limit b.limit ∧
      Confused a.collectionLimit b.collectionLimit := by
  have hwords : fedBytes a = fedBytes b ↔ configWords a = configWords b :=
    ⟨fun h => flatMap_leBytes_inj rfl (words_lt ha) (words_lt hb) h, fun h => by
      rw [fedBytes, fedBytes, h]⟩
  rw [hwords, configWords, configWords]
  simp only [List.cons.injEq, true_and, and_true, endianValue_inj, integersValue_inj,
    trailingValue_inj, optionValue_eq_iff]

/-- **What the fingerprint tells apart.** It hashes the bytes fed, and these differ for two
different configurations if and only if a field other than the depth limit differs, where a
missing limit does not count as different from the limit `2 ^ 63`. -/
theorem fedBytes_ne_iff {a b : Config} (ha : Bounded a) (hb : Bounded b) :
    (∀ hash, configFingerprint hash a = hashBytes hash (fedBytes a)) ∧
      ((a ≠ b → fedBytes a ≠ fedBytes b) ↔
        (a ≠ b → a.endian ≠ b.endian ∨ a.integers ≠ b.integers ∨ a.trailing ≠ b.trailing ∨
          ¬ Confused a.limit b.limit ∨ ¬ Confused a.collectionLimit b.collectionLimit)) := by
  refine ⟨fun hash => configFingerprint_eq hash a, ?_⟩
  have hiff := fedBytes_eq_iff ha hb
  constructor
  · intro h hne
    by_contra hsame
    simp only [not_or, not_not] at hsame
    exact h hne (hiff.mpr hsame)
  · intro h hne heq
    obtain ⟨h1, h2, h3, h4, h5⟩ := hiff.mp heq
    simp only [h1, h2, h3, h4, h5, ne_eq, not_true_eq_false, or_false] at h
    exact h hne

end Words

section Witness

local instance hostTarget : Target := ⟨true⟩

lemma bounded_standard : Bounded .standard := ⟨by rintro l ⟨⟩; decide, by rintro l ⟨⟩; decide⟩

lemma bounded_legacy : Bounded .legacy := ⟨by rintro l ⟨⟩, by rintro l ⟨⟩⟩

/-- The byte limit alone tells two configurations apart. -/
theorem fedBytes_ne_standard : fedBytes .standard ≠ fedBytes (Config.standard.withLimit 8) := by
  have hbounded : Bounded (Config.standard.withLimit 8) :=
    ⟨by rintro l ⟨⟩; decide, by rintro l ⟨⟩; decide⟩
  have hlimit : ¬ Confused Config.standard.limit (Config.standard.withLimit 8).limit := by
    simp [Confused, Config.standard, Config.withLimit, defaultSizeLimit]
  refine (fedBytes_ne_iff bounded_standard hbounded).2.mpr (fun _ => ?_) ?_
  · exact .inr (.inr (.inr (.inl hlimit)))
  · intro h
    exact hlimit (.inl (congrArg Config.limit h))

/-- The depth limit is in no word, and a missing limit is in the word of `2 ^ 63`. -/
theorem fedBytes_same :
    ¬ (∀ a b : Config, Bounded a → Bounded b → a.depthLimit ≠ b.depthLimit →
        fedBytes a ≠ fedBytes b) ∧
      ¬ (∀ a b : Config, Bounded a → Bounded b → a.limit ≠ b.limit → fedBytes a ≠ fedBytes b) := by
  constructor
  · intro h
    exact h .standard (Config.standard.withDepthLimit 8) bounded_standard
      ⟨bounded_standard.limit, bounded_standard.collectionLimit⟩ (by decide) rfl
  · intro h
    have hlarge : Bounded { Config.legacy with limit := some (2 ^ 63) } :=
      ⟨by rintro l ⟨⟩; decide, by rintro l ⟨⟩⟩
    refine h .legacy { Config.legacy with limit := some (2 ^ 63) } bounded_legacy hlarge
      (by decide) ?_
    exact (fedBytes_eq_iff bounded_legacy hlarge).mpr
      ⟨rfl, rfl, rfl, .inr (.inl ⟨rfl, rfl⟩), .inl rfl⟩

end Witness

end RustBinary.Schema
