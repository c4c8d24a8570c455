import RustBinary.Core.Config
import RustBinary.Lib.Outcome

/-!
# Slices and vectors

No slice and no vector spans more than `isize::MAX` bytes.  Memory is taken to suffice, so
that an allocation below that bound succeeds.
-/

namespace RustBinary

open Lib

/-- The largest value of an `isize` on a 64-bit target. -/
def isizeMax : ℕ := 2 ^ 63 - 1

/-- A slice of elements of `size` bytes each. -/
structure Slice (size : ℕ) (α : Type) where
  elems : List α
  length_le : size * elems.length ≤ isizeMax

/-- `Vec::with_capacity` for elements of `size` bytes. -/
def withCapacity (size count : ℕ) : Outcome Error Unit :=
  if size * count ≤ isizeMax then .ok () else .panic

lemma withCapacity_of_le {size count : ℕ} (h : size * count ≤ isizeMax) :
    withCapacity size count = .ok () := if_pos h

lemma withCapacity_eq_ok {size count : ℕ} {u : Unit} :
    withCapacity size count = .ok u ↔ size * count ≤ isizeMax := by
  rw [withCapacity]
  split
  · next h => simp [h]
  · next h => simp [h]

/-- `enforce_byte_limit` of the framed profiles. -/
def Config.enforceByteLimit (c : Config) (length : ℕ) : Outcome Error Unit :=
  match c.limit with
  | some limit => if limit < length then .err (.sizeLimit limit) else .ok ()
  | none => .ok ()

/-- A length against a limit that may be absent. -/
lemma limit_eq_ok {ε : Type} {limit? : Option ℕ} {length : ℕ} {error : ℕ → ε} {u : Unit} :
    (match limit? with
      | some limit => if limit < length then .err (error limit) else .ok ()
      | none => .ok () : Outcome ε Unit) = .ok u
      ↔ ∀ limit, limit? = some limit → length ≤ limit := by
  cases limit? with
  | none => simp
  | some limit =>
      by_cases h : limit < length
      · simp [h]
      · simp [h, not_lt.mp h]

lemma Config.enforceByteLimit_eq_ok {c : Config} {length : ℕ} {u : Unit} :
    c.enforceByteLimit length = .ok u ↔ ∀ limit, c.limit = some limit → length ≤ limit :=
  limit_eq_ok

/-- `enforce_collection_limit` of the framed profiles. -/
def Config.enforceCollectionLimit (c : Config) (length : ℕ) : Outcome Error Unit :=
  match c.collectionLimit with
  | some limit => if limit < length then .err (.collectionLimit limit) else .ok ()
  | none => .ok ()

lemma Config.enforceCollectionLimit_eq_ok {c : Config} {length : ℕ} {u : Unit} :
    c.enforceCollectionLimit length = .ok u ↔
      ∀ limit, c.collectionLimit = some limit → length ≤ limit :=
  limit_eq_ok

end RustBinary
