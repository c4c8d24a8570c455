import RustBinary.Cbor.Steps

/-!
# Heads

A head is one byte of major type and additional information with at most eight bytes of
argument.  Reading one either fails, or moves the cursor and gives the major type of the
byte at the cursor with an argument that is `indefinite` exactly for the additional
information 31; outside major type 7 every other argument is a value of 64 bits.
-/

namespace RustBinary.Cbor

open Lib Lib.Act

namespace CborDecoder

variable (s : CborDecoder)

lemma takeExact_cases (len : ℕ) :
    (∃ out, slice s.input.bytes s.cursor (s.cursor + len) = some out ∧
      s.Admits (s.cursor + len) ∧
      takeExact len s = (.ok out, { s with cursor := s.cursor + len })) ∨
    ((slice s.input.bytes s.cursor (s.cursor + len) = none ∨ ¬ s.Admits (s.cursor + len)) ∧
      ∃ e, takeExact len s = (.err wireFailure, s.failed e)) := by
  rcases take_cases s len with ⟨out, hout, hlim, h⟩ | ⟨hno, e, h⟩
  · refine .inl ⟨out, hout, hlim, ?_⟩
    have hlen : out.length = len := by
      rw [slice_length hout]
      omega
    rw [takeExact, bind_of_ok h, if_pos hlen]
    rfl
  · exact .inr ⟨hno, e, by rw [takeExact, bind_of_err h]⟩

lemma takeExact_of_slice {len : ℕ} {out : List UInt8}
    (h : slice s.input.bytes s.cursor (s.cursor + len) = some out)
    (hlim : s.Admits (s.cursor + len)) :
    takeExact len s = (.ok out, { s with cursor := s.cursor + len }) := by
  have hlen : out.length = len := by
    rw [slice_length h]
    omega
  rw [takeExact, bind_of_ok (take_of_slice s h hlim), if_pos hlen]
  rfl

lemma takeValue_cases (len : ℕ) (hlen : len ≤ 8) :
    (∃ v, v < 2 ^ 64 ∧
      takeValue len s = (.ok (.value v), { s with cursor := s.cursor + len })) ∨
    ∃ e, takeValue len s = (.err wireFailure, s.failed e) := by
  rcases takeExact_cases s len with ⟨out, hout, -, h⟩ | ⟨-, e, h⟩
  · refine .inl ⟨beNat out, ?_, by rw [takeValue, bind_of_ok h]; rfl⟩
    have hout' : out.length = len := by
      rw [slice_length hout]
      omega
    calc beNat out < 256 ^ out.length := beNat_lt out
      _ ≤ 256 ^ 8 := Nat.pow_le_pow_right (by decide) (by omega)
      _ = 2 ^ 64 := by decide
  · exact .inr ⟨e, by rw [takeValue, bind_of_err h]⟩

/-- The argument of a head of major type `major` with additional information `ai`. -/
def Spells (major ai : ℕ) (argument : HeadArg) : Prop :=
  (argument = .indefinite ↔ ai = 31) ∧
    (major ≠ 7 → argument ≠ .indefinite → ∃ v, argument = .value v ∧ v < 2 ^ 64)

lemma readArgument_cases (major : ℕ) {ai : ℕ} (hai : ai < 32) :
    (∃ argument n, readArgument major ai s = (.ok argument, { s with cursor := s.cursor + n }) ∧
      Spells major ai argument) ∨
    ∃ e, readArgument major ai s = (.err wireFailure, s.failed e) := by
  have hvalue : ∀ v, v < 2 ^ 64 → ai ≠ 31 → Spells major ai (.value v) :=
    fun v hv hne => ⟨by simp [hne], fun _ _ => ⟨v, rfl, hv⟩⟩
  have htake : ∀ len, len ≤ 8 → ai ≠ 31 → readArgument major ai = takeValue len →
      (∃ argument n, readArgument major ai s =
          (.ok argument, { s with cursor := s.cursor + n }) ∧ Spells major ai argument) ∨
        ∃ e, readArgument major ai s = (.err wireFailure, s.failed e) := by
    intro len hlen hne heq
    rw [heq]
    rcases takeValue_cases s len hlen with ⟨v, hv, h⟩ | h
    · exact .inl ⟨_, len, h, hvalue v hv hne⟩
    · exact .inr h
  by_cases h7 : major = 7
  · subst h7
    have hshape : ∀ argument, argument ≠ .indefinite → ai ≠ 31 → Spells 7 ai argument :=
      fun argument h h' => ⟨⟨fun h'' => absurd h'' h, fun h'' => absurd h'' h'⟩,
        fun h'' => absurd rfl h''⟩
    unfold readArgument
    rw [if_pos rfl]
    split_ifs with h1 h2 h3 h4 h5 h6 h7
    · exact .inl ⟨_, 0, rfl, hshape _ nofun (by omega)⟩
    · exact .inl ⟨_, 0, rfl, hshape _ nofun (by omega)⟩
    · exact .inl ⟨_, 0, rfl, hshape _ nofun (by omega)⟩
    · exact .inl ⟨_, 0, rfl, hshape _ nofun (by omega)⟩
    · exact .inl ⟨_, 0, rfl, hshape _ nofun (by omega)⟩
    · exact .inr ⟨_, rfl⟩
    · exact .inl ⟨_, 0, rfl, ⟨by simp [h7], fun _ h => absurd rfl h⟩⟩
    · omega
  · by_cases h1 : ai ≤ 23
    · refine .inl ⟨.value ai, 0, ?_, hvalue ai (by omega) (by omega)⟩
      rw [readArgument, if_neg h7, if_pos h1]
      rfl
    · by_cases h2 : ai = 24
      · refine htake 1 (by omega) (by omega) ?_
        rw [readArgument, if_neg h7, if_neg h1, if_pos h2]
      · by_cases h3 : ai = 25
        · refine htake 2 (by omega) (by omega) ?_
          rw [readArgument, if_neg h7, if_neg h1, if_neg h2, if_pos h3]
        · by_cases h4 : ai = 26
          · refine htake 4 (by omega) (by omega) ?_
            rw [readArgument, if_neg h7, if_neg h1, if_neg h2, if_neg h3, if_pos h4]
          · by_cases h5 : ai = 27
            · refine htake 8 (by omega) (by omega) ?_
              rw [readArgument, if_neg h7, if_neg h1, if_neg h2, if_neg h3, if_neg h4, if_pos h5]
            · rw [readArgument, if_neg h7, if_neg h1, if_neg h2, if_neg h3, if_neg h4, if_neg h5]
              by_cases h6 : ai ≤ 30
              · rw [if_pos h6]
                exact .inr ⟨_, rfl⟩
              · rw [if_neg h6, if_pos (by omega)]
                exact .inl ⟨.indefinite, 0, rfl, by simp; omega, fun _ h => absurd rfl h⟩

end CborDecoder

/-- The head at the cursor of `s` has the major type `major` and the argument `argument`,
and reading it leads to `t`. -/
structure HeadRead (s : CborDecoder) (major : ℕ) (argument : HeadArg) (t : CborDecoder) :
    Prop where
  byte : ∃ byte : UInt8, s.input.bytes[s.cursor]? = some byte ∧ s.Admits (s.cursor + 1) ∧
    major = byte.toNat / 2 ^ 5 ∧ (argument = .indefinite ↔ byte.toNat % 2 ^ 5 = 31)
  value : major ≠ 7 → argument ≠ .indefinite → ∃ v, argument = .value v ∧ v < 2 ^ 64
  moved : ∃ n, 0 < n ∧ t = { s with cursor := s.cursor + n }

namespace CborDecoder

variable (s : CborDecoder)

lemma beNat_singleton (byte : UInt8) : beNat [byte] = byte.toNat := by
  simp [beNat, leNat]

/-- Reading a head. -/
lemma readHead_cases :
    (∃ major argument t, readHead s = (.ok (major, argument), t) ∧
      HeadRead s major argument t) ∨
    ∃ t, readHead s = (.err wireFailure, t) := by
  rcases takeExact_cases s 1 with ⟨out, hout, hlim, h⟩ | ⟨-, e, h⟩
  · rw [slice_one] at hout
    obtain ⟨byte, hbyte, rfl⟩ := Option.map_eq_some_iff.mp hout
    have hai : beNat [byte] % 2 ^ 5 < 32 := Nat.mod_lt _ (by decide)
    rcases readArgument_cases { s with cursor := s.cursor + 1 } (beNat [byte] / 2 ^ 5) hai
      with ⟨argument, n, harg, hspells, hvalue⟩ | ⟨e, harg⟩
    · refine .inl ⟨beNat [byte] / 2 ^ 5, argument, { s with cursor := s.cursor + 1 + n }, ?_, ?_⟩
      · rw [readHead, bind_of_ok h, bind_of_ok harg]
        rfl
      · rw [beNat_singleton] at hspells hvalue ⊢
        exact ⟨⟨byte, hbyte, hlim, rfl, hspells⟩, hvalue, 1 + n, by omega, by rw [Nat.add_assoc]⟩
    · exact .inr ⟨_, by rw [readHead, bind_of_ok h, bind_of_err harg]⟩
  · exact .inr ⟨_, by rw [readHead, bind_of_err h]⟩

/-- A head with additional information 31 is read as one without a value. -/
lemma readHead_indefinite {byte : UInt8} (hbyte : s.input.bytes[s.cursor]? = some byte)
    (hlim : s.Admits (s.cursor + 1)) (hai : byte.toNat % 2 ^ 5 = 31) :
    readHead s =
      (.ok (byte.toNat / 2 ^ 5, .indefinite), { s with cursor := s.cursor + 1 }) := by
  have hout : slice s.input.bytes s.cursor (s.cursor + 1) = some [byte] := by
    rw [slice_one, hbyte]
    rfl
  have harg : ∀ major, readArgument major 31 = pure .indefinite := by
    intro major
    rw [readArgument]
    split <;> rfl
  rw [readHead, bind_of_ok (takeExact_of_slice s hout hlim), beNat_singleton, hai, harg]
  rfl

end CborDecoder

end RustBinary.Cbor
