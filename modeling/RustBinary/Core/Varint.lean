import RustBinary.Core.Canonical
import RustBinary.Lib.Spells

/-!
# Marker-varints and their readers

The varint of a number is the number, or a marker and the payload that the number needs.  The
readers of the profiles differ in the byte order of the payload and in how they go through the
markers; `spells_varintBy` says once what they have to do.
-/

namespace RustBinary

open Lib

section

variable {payload : ℕ → ℕ → List UInt8} {n : ℕ} {bs : List UInt8}

/-- The canonical varint with payloads written by `payload`. -/
def varintBy (payload : ℕ → ℕ → List UInt8) (n : ℕ) : List UInt8 :=
  if n ≤ 250 then [UInt8.ofNat n]
  else if n ≤ 0xffff then markerU16 :: payload 2 n
  else if n ≤ 0xffffffff then markerU32 :: payload 4 n
  else if n ≤ 0xffffffffffffffff then markerU64 :: payload 8 n
  else markerU128 :: payload 16 n

lemma encodeVarintLe_eq (n : ℕ) : encodeVarintLe n = varintBy leBytes n := rfl

lemma varintBy_of_le (h : n ≤ 250) : varintBy payload n = [UInt8.ofNat n] := if_pos h

lemma varintBy_of_wide (payload : ℕ → ℕ → List UInt8) {marker : UInt8} {width minimum : ℕ}
    (hform : (marker, width, minimum) ∈ wideForms) (hmin : minimum ≤ n) (hlt : n < 256 ^ width) :
    n < 2 ^ 128 ∧ varintBy payload n = marker :: payload width n := by
  simp only [wideForms, List.mem_cons, Prod.mk.injEq, List.not_mem_nil, or_false] at hform
  rw [varintBy]
  rcases hform with ⟨rfl, rfl, rfl⟩ | ⟨rfl, rfl, rfl⟩ | ⟨rfl, rfl, rfl⟩ | ⟨rfl, rfl, rfl⟩
  · rw [if_neg (by omega), if_pos (by omega)]
    exact ⟨by omega, rfl⟩
  · rw [if_neg (by omega), if_neg (by omega), if_pos (by omega)]
    exact ⟨by omega, rfl⟩
  · rw [if_neg (by omega), if_neg (by omega), if_neg (by omega), if_pos (by omega)]
    exact ⟨by omega, rfl⟩
  · rw [if_neg (by omega), if_neg (by omega), if_neg (by omega), if_neg (by omega)]
    exact ⟨by omega, rfl⟩

/-- The varint of a number is the number, or a marker and the payload that the number needs. -/
lemma varintBy_cases (payload : ℕ → ℕ → List UInt8) (h : n < 2 ^ 128) :
    (n ≤ 250 ∧ varintBy payload n = [UInt8.ofNat n]) ∨
      ∃ marker width minimum, (marker, width, minimum) ∈ wideForms ∧ minimum ≤ n ∧
        n < 256 ^ width ∧ varintBy payload n = marker :: payload width n := by
  rw [varintBy]
  split
  · next h0 => exact .inl ⟨h0, rfl⟩
  · split
    · exact .inr ⟨_, 2, 251, by decide, by omega, by omega, rfl⟩
    · split
      · exact .inr ⟨_, 4, 2 ^ 16, by decide, by omega, by omega, rfl⟩
      · split
        · exact .inr ⟨_, 8, 2 ^ 32, by decide, by omega, by omega, rfl⟩
        · exact .inr ⟨_, 16, 2 ^ 64, by decide, by omega, by omega, rfl⟩

/-- What follows a marker in the varint of `n`. -/
def Marked (payload : ℕ → ℕ → List UInt8) (marker : UInt8) (n : ℕ) (bs : List UInt8) : Prop :=
  (marker.toNat ≤ 250 ∧ n = marker.toNat ∧ bs = []) ∨
    ∃ width minimum, (marker, width, minimum) ∈ wideForms ∧ minimum ≤ n ∧ n < 256 ^ width ∧
      bs = payload width n

lemma marked_of_le {marker : UInt8} (h : marker.toNat ≤ 250) :
    Marked payload marker n bs ↔ n = marker.toNat ∧ bs = [] := by
  constructor
  · rintro (⟨-, rfl, rfl⟩ | ⟨width, minimum, hform, -⟩)
    · exact ⟨rfl, rfl⟩
    · exact absurd (lt_of_mem_wideForms hform) (Nat.not_lt.mpr h)
  · rintro ⟨rfl, rfl⟩
    exact .inl ⟨h, rfl, rfl⟩

lemma marked_of_wide {marker : UInt8} {width minimum : ℕ}
    (h : (marker, width, minimum) ∈ wideForms) :
    Marked payload marker n bs ↔ minimum ≤ n ∧ n < 256 ^ width ∧ bs = payload width n := by
  constructor
  · rintro (⟨hle, -⟩ | ⟨width', minimum', hform, hrest⟩)
    · exact absurd (lt_of_mem_wideForms h) (Nat.not_lt.mpr hle)
    · -- a marker has one form only
      have hsame : width' = width ∧ minimum' = minimum := by
        simp only [wideForms, List.mem_cons, Prod.mk.injEq, List.not_mem_nil, or_false] at h hform
        rcases h with ⟨rfl, rfl, rfl⟩ | ⟨rfl, rfl, rfl⟩ | ⟨rfl, rfl, rfl⟩ | ⟨rfl, rfl, rfl⟩ <;>
          simpa [markerU16, markerU32, markerU64, markerU128] using hform
      obtain ⟨rfl, rfl⟩ := hsame
      exact hrest
  · intro hrest
    exact .inr ⟨width, minimum, h, hrest⟩

lemma not_marked_255 : ¬ Marked payload 255 n bs := by
  rintro (⟨hle, -⟩ | ⟨width, minimum, hform, -⟩)
  · exact absurd hle (by decide)
  · simp [wideForms, markerU16, markerU32, markerU64, markerU128] at hform

lemma marked_iff :
    (∃ marker ys, Marked payload marker n ys ∧ bs = marker :: ys) ↔
      n < 2 ^ 128 ∧ bs = varintBy payload n := by
  constructor
  · rintro ⟨marker, ys, ⟨hle, rfl, rfl⟩ | ⟨width, minimum, hform, hmin, hlt, rfl⟩, rfl⟩
    · refine ⟨by omega, ?_⟩
      rw [varintBy_of_le hle, UInt8.ofNat_toNat]
    · obtain ⟨hbound, hspell⟩ := varintBy_of_wide payload hform hmin hlt
      exact ⟨hbound, hspell.symm⟩
  · rintro ⟨hbound, rfl⟩
    rcases varintBy_cases payload hbound with
      ⟨hle, h⟩ | ⟨marker, width, minimum, hform, hmin, hlt, h⟩
    · have hnat : (UInt8.ofNat n).toNat = n := by
        rw [UInt8.toNat_ofNat']
        omega
      exact ⟨_, [], .inl ⟨by omega, hnat.symm, rfl⟩, h⟩
    · exact ⟨marker, _, .inr ⟨width, minimum, hform, hmin, hlt, rfl⟩, h⟩

end

section Readers

variable {σ ε : Type} [Tape σ UInt8] {G : σ → Prop} {payload : ℕ → ℕ → List UInt8}

/-- A reader that comes back with a marker that is a number, reads the payload of the other ones
and refuses the one that is left reads varints. -/
lemma spells_varintBy (hG : Steady G) {byte : Act σ ε UInt8} {read : UInt8 → Act σ ε ℕ}
    (hbyte : Spells G byte fun marker bs => bs = [marker])
    (hplain : ∀ marker : UInt8, marker.toNat ≤ 250 →
      Spells G (read marker) fun n bs => n = marker.toNat ∧ bs = [])
    (hwide : ∀ marker width minimum, (marker, width, minimum) ∈ wideForms →
      Spells G (read marker) fun n bs => minimum ≤ n ∧ n < 256 ^ width ∧ bs = payload width n)
    (hlast : Spells G (read 255) fun _ _ => False) :
    Spells G (byte >>= read) fun n bs => n < 2 ^ 128 ∧ bs = varintBy payload n := by
  have hread : ∀ marker, Spells G (read marker) (Marked payload marker) := by
    intro marker
    rcases marker_cases marker with hle | ⟨width, minimum, hform⟩ | rfl
    · exact (hplain marker hle).congr fun n bs => (marked_of_le hle).symm
    · exact (hwide marker width minimum hform).congr fun n bs => (marked_of_wide hform).symm
    · exact hlast.congr fun n bs => (iff_false_intro not_marked_255).symm
  refine (hbyte.bind hG hread).congr fun n bs => ?_
  rw [← marked_iff]
  constructor
  · rintro ⟨marker, _, ys, rfl, hys, rfl⟩
    exact ⟨marker, ys, hys, rfl⟩
  · rintro ⟨marker, ys, hys, rfl⟩
    exact ⟨marker, [marker], ys, rfl, hys, rfl⟩

end Readers

end RustBinary
