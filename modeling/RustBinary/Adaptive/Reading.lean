import RustBinary.Adaptive.Integers
import Mathlib.Data.List.TakeWhile

/-!
# Reading integer collections

The varints of the cursor, and the loops of the decoder on what the strategies write.  The plain
prefix of the raw strategy is a short cut: whatever the input, it comes back with the values, the
cursor and the error of the loop that reads one varint at a time.
-/

namespace RustBinary.Adaptive

open Lib Lib.Act Cursor Decoding

/-! ## Varints -/

lemma spells_byte : Spells Always byte fun first bs => bs = [first] := by
  refine ((spells_take 1).bind (M := fun bytes first bs => bytes.head? = some first ∧ bs = [])
    steady_always fun bytes => ?_).congr fun first bs => ?_
  · cases bytes with
    | nil => exact (Spells.never fun s _ a t => by simp).congr fun a bs => by simp
    | cons first rest => exact (Spells.pure first).congr fun a bs => by simp [eq_comm]
  · constructor
    · rintro ⟨_, xs, _, ⟨rfl, hlen⟩, ⟨hhead, rfl⟩, rfl⟩
      obtain ⟨x, rfl⟩ := List.length_eq_one_iff.mp hlen
      simpa using hhead
    · rintro rfl
      exact ⟨[first], [first], [], ⟨rfl, rfl⟩, ⟨rfl, rfl⟩, rfl⟩

lemma spells_throw {α : Type} (e : Error) :
    Spells Always (throw e : Act Cursor Error α) fun _ (_ : List UInt8) => False :=
  Spells.never fun s _ a t h => by simp at h

lemma spells_payload (width minimum : ℕ) :
    Spells Always (payload width minimum) fun n bs =>
      minimum ≤ n ∧ n < 256 ^ width ∧ bs = leBytes width n := by
  refine ((spells_number width).bind steady_always fun value =>
    (spells_throw _).ite (Spells.pure value)).congr fun n bs => ?_
  constructor
  · rintro ⟨value, xs, ys, ⟨hlt, rfl⟩, hvalue, rfl⟩
    split at hvalue
    · exact hvalue.elim
    · next hmin =>
        obtain ⟨rfl, rfl⟩ := hvalue
        exact ⟨Nat.le_of_not_lt hmin, hlt, List.append_nil _⟩
  · rintro ⟨hmin, hlt, rfl⟩
    refine ⟨n, _, [], ⟨hlt, rfl⟩, ?_, (List.append_nil _).symm⟩
    rw [if_neg (Nat.not_lt.mpr hmin)]
    exact ⟨rfl, rfl⟩

lemma spells_varint :
    Spells Always varint fun n bs => n < 2 ^ 128 ∧ bs = encodeVarintLe n := by
  refine spells_varintBy steady_always spells_byte ?_ ?_ ?_
  · intro marker hle
    rw [if_pos hle]
    exact Spells.pure _
  · intro marker width minimum hform
    rw [if_neg (Nat.not_le.mpr (lt_of_mem_wideForms hform))]
    simp only [wideForms, List.mem_cons, Prod.mk.injEq, List.not_mem_nil, or_false] at hform
    rcases hform with ⟨rfl, rfl, rfl⟩ | ⟨rfl, rfl, rfl⟩ | ⟨rfl, rfl, rfl⟩ | ⟨rfl, rfl, rfl⟩ <;>
      exact spells_payload _ _
  · exact spells_throw _

lemma spells_usizeVarint :
    Spells Always usizeVarint fun n bs => n ≤ u64Max ∧ bs = encodeVarintLe n := by
  refine (spells_varint.bind steady_always fun value =>
    (Spells.pure value).ite (spells_throw _)).congr fun n bs => ?_
  constructor
  · rintro ⟨value, xs, ys, ⟨-, rfl⟩, hvalue, rfl⟩
    split at hvalue
    · next hmax =>
        obtain ⟨rfl, rfl⟩ := hvalue
        exact ⟨hmax, List.append_nil _⟩
    · exact hvalue.elim
  · rintro ⟨hmax, rfl⟩
    have hlt : n < 2 ^ 128 := by
      rw [u64Max] at hmax
      omega
    refine ⟨n, _, [], ⟨hlt, rfl⟩, ?_, (List.append_nil _).symm⟩
    rw [if_pos hmax]
    exact ⟨rfl, rfl⟩

/-! ## ZigZag words -/

lemma zigzagI64_eq (value : Int64) : zigzagI64 value = zigzagEncode value.toInt := by
  have hle := value.le_toInt
  have hlt := value.toInt_lt
  have h64 : (zigzagI64 value : ℤ) = _ := zigzag_toNat (w := 63) value.toBitVec
  have h128 := zigzagEncode_eq (z := value.toInt) (by omega) (by omega)
  rw [show value.toBitVec.toInt = value.toInt from rfl] at h64
  exact_mod_cast h64.trans h128.symm

lemma toI64_toInt (value : Int64) : toI64 value.toInt = some value := by
  rw [toI64, if_pos ⟨value.le_toInt, value.toInt_lt⟩, Int64.ofInt_toInt]

/-- A value comes back from its word. -/
lemma decodeI64_zigzagI64 (value : Int64) :
    zigzagI64 value < 2 ^ 128 ∧ decodeI64 (zigzagI64 value) = .ok value := by
  have hle := value.le_toInt
  have hlt := value.toInt_lt
  obtain ⟨hword, hdecode⟩ := zigzagDecode_zigzagEncode (z := value.toInt) (by omega) (by omega)
  rw [zigzagI64_eq]
  refine ⟨hword, ?_⟩
  rw [decodeI64, decodeI128, hdecode, toI64_toInt]
  rfl

/-- The word of a plain byte is in range. -/
lemma decodeI64_plain {n : ℕ} (h : n ≤ 250) : decodeI64 n = .ok (Int64.ofInt (decodeI128 n)) := by
  have hvalue : -2 ^ 63 ≤ decodeI128 n ∧ decodeI128 n < 2 ^ 63 := by
    rw [decodeI128, zigzagDecode_eq (by omega)]
    split <;> omega
  rw [decodeI64, toI64, if_pos hvalue]
  rfl

/-! ## One varint at a time -/

/-- The raw strategy without its short cut, for `count` values. -/
def oneByOne : ℕ → Act Decoding Error Unit
  | 0 => pure ()
  | count + 1 => do
      rawValue
      oneByOne count

/-- A decoding that has read `length` more bytes and written `values`. -/
def Decoding.after (s : Decoding) (length : ℕ) (values : List Int64) : Decoding where
  cursor := Tape.advance s.cursor length
  values := s.values ++ values

lemma after_after (s : Decoding) (m n : ℕ) (vs ws : List Int64) :
    (s.after m vs).after n ws = s.after (m + n) (vs ++ ws) := by
  simp only [Decoding.after, Tape.advance_advance, List.append_assoc]

lemma after_zero (s : Decoding) : s.after 0 [] = s := by
  simp only [Decoding.after, Tape.advance_zero, List.append_nil]

lemma pure_after (s : Decoding) : (pure () : Act Decoding Error Unit) s = (.ok (), s.after 0 []) := by
  rw [after_zero, pure_run]

lemma emit_after (s : Decoding) (n : ℕ) (vs ws : List Int64) :
    emit ws (s.after n vs) = (.ok (), s.after n (vs ++ ws)) := by
  simp only [emit, modify_run, Decoding.after, List.append_assoc]

/-- Reading what lies at the cursor. -/
lemma reading_of {α : Type} {m : Act Cursor Error α} {L : α → List UInt8 → Prop}
    (h : Spells Always m L) {s : Decoding} {a : α} {bs : List UInt8} (hL : L a bs)
    (hhere : Tape.Here s.cursor bs) : reading m s = (.ok a, s.after bs.length []) := by
  have hrun := (h s.cursor trivial (Tape.Here.nil hhere) a _).mpr ⟨bs, hL, hhere, rfl⟩
  rw [reading, hrun, Decoding.after, List.append_nil]

/-- The word of a value, at the cursor. -/
lemma rawValue_of {s : Decoding} {word : ℕ} {value : Int64} (hword : word < 2 ^ 128)
    (hvalue : decodeI64 word = .ok value) (hhere : Tape.Here s.cursor (encodeVarintLe word)) :
    rawValue s = (.ok (), s.after (encodeVarintLe word).length [value]) := by
  rw [rawValue, bind_of_ok (reading_of spells_varint ⟨hword, rfl⟩ hhere), hvalue]
  exact emit_after s _ [] [value]

/-- A value that is read is written. -/
lemma rawValue_length {s t : Decoding} {u : Unit} (h : rawValue s = (.ok u, t)) :
    t.values.length = s.values.length + 1 := by
  obtain ⟨word, s', hread, h⟩ := bind_eq_ok.mp h
  obtain ⟨value, s'', hcall, h⟩ := bind_eq_ok.mp h
  rw [call_run, Prod.mk.injEq] at hcall
  obtain ⟨-, rfl⟩ := hcall
  cases h
  have hvalues : s'.values = s.values := by
    rw [← show (reading varint s).2 = s' from congrArg Prod.snd hread]
    rfl
  rw [List.length_append, hvalues]
  rfl

/-- Plain bytes are values of their own. -/
lemma oneByOne_plain {bytes : List UInt8} {s : Decoding} (hplain : ∀ byte ∈ bytes, byte ≤ 250)
    (hhere : Tape.Here s.cursor bytes) (count : ℕ) :
    oneByOne (bytes.length + count) s = oneByOne count (s.after bytes.length
      (bytes.map fun byte => Int64.ofInt (decodeI128 byte.toNat))) := by
  induction bytes generalizing s with
  | nil => rw [List.length_nil, Nat.zero_add, List.map_nil, after_zero]
  | cons first rest ih =>
      obtain ⟨hfirst, hrest⟩ := List.forall_mem_cons.mp hplain
      obtain ⟨hhead, htail⟩ := (Tape.here_append s.cursor [first] rest).mp hhere
      have hle : first.toNat ≤ 250 := hfirst
      have hspell : encodeVarintLe first.toNat = [first] := by
        rw [encodeVarintLe_eq, varintBy_of_le hle, UInt8.ofNat_toNat]
      have hvalue := rawValue_of (s := s) (by omega) (decodeI64_plain hle) (hspell.symm ▸ hhead)
      rw [hspell] at hvalue
      rw [List.length_cons, Nat.add_right_comm, oneByOne, bind_of_ok hvalue, ih hrest htail,
        after_after, List.map_cons, Nat.add_comm]
      rfl

/-- Outside of the input nothing can be read. -/
lemma take_of_not_here {cursor : Cursor} (h : ¬ Tape.Here cursor ([] : List UInt8)) (length : ℕ) :
    take length cursor = (.err .unexpectedEnd, cursor) := by
  have hend : ¬ cursor.position ≤ cursor.input.elems.length := by
    intro hle
    exact h ⟨slice_eq_some.mpr ⟨by simp, by simpa using hle, by simp⟩, fun _ h => nomatch h⟩
  rw [take, get_bind_run]
  cases hstop : checkedAdd cursor.position length with
  | none => rfl
  | some stop =>
      rw [checkedAdd, Option.ite_none_right_eq_some, Option.some.injEq] at hstop
      have hslice : slice cursor.input.elems cursor.position stop = none := if_neg (by omega)
      rw [okOr_some, pure_bind_run, hslice]
      rfl

/-- One round of the raw strategy reads as many values one by one as it reads at once. -/
lemma rawRound_eq (backend : Backend) {length : ℕ} {s : Decoding}
    (hhere : Tape.Here s.cursor ([] : List UInt8)) (hshort : s.values.length < length) :
    ∃ (count : ℕ) (t : Decoding), t.values.length = s.values.length + count ∧
      s.values.length + count ≤ length ∧
      (∀ n, oneByOne (count + n) s = oneByOne n t) ∧
      (t.values.length < length → rawRound backend length s = rawValue t) ∧
      (t.values.length = length → rawRound backend length s = (.ok (), t) ∧ 0 < count) := by
  have hend : s.cursor.position ≤ s.cursor.input.elems.length := by
    simpa using (slice_eq_some.mp hhere.1).2.1
  have hprefix := plainVarintPrefix_eq backend (s.cursor.input.elems.drop s.cursor.position)
  set rest := s.cursor.input.elems.drop s.cursor.position with hrest
  set plain := min (plainVarintPrefix backend rest) (length - s.values.length) with hplain
  have hle : plain ≤ rest.length := by
    have := (List.takeWhile_prefix (l := rest) fun byte => byte ≤ 250).length_le
    omega
  have hlen : (rest.take plain).length = plain := List.length_take_of_le hle
  have hbytes : ∀ byte ∈ rest.take plain, byte ≤ 250 := by
    intro byte hbyte
    have hmem : byte ∈ (rest.takeWhile fun byte => byte ≤ 250) := by
      refine (List.IsPrefix.subset ?_) hbyte
      refine List.prefix_of_prefix_length_le (List.take_prefix _ _) (List.takeWhile_prefix _) ?_
      omega
    simpa using List.mem_takeWhile_imp hmem
  have hwindow : Tape.Here s.cursor (rest.take plain) := by
    refine ⟨slice_eq_some.mpr ⟨by omega, ?_, ?_⟩, fun _ h => nomatch h⟩
    · rw [hlen]
      rw [hrest, List.length_drop] at hle
      omega
    · rw [hlen, Nat.add_sub_cancel_left]
  have hread := reading_of (spells_take plain) ⟨rfl, hlen⟩ hwindow
  set values := (rest.take plain).map fun byte => Int64.ofInt (decodeI128 byte.toNat) with hvalues
  have hround : rawRound backend length s =
      (if (s.after plain values).values.length < length then rawValue else pure ())
        (s.after plain values) := by
    rw [rawRound, get_bind_run, bind_of_ok hread, hlen, bind_of_ok (emit_after s plain [] _)]
    rfl
  have hcount : (s.after plain values).values.length = s.values.length + plain := by
    rw [Decoding.after, List.length_append, hvalues, List.length_map, hlen]
  refine ⟨plain, s.after plain values, hcount, by omega, ?_, ?_, ?_⟩
  · intro n
    have h := oneByOne_plain hbytes hwindow n
    rwa [hlen] at h
  · intro hlt
    rw [hround, if_pos hlt]
  · intro heq
    rw [hround, if_neg (by omega)]
    exact ⟨rfl, by omega⟩

/-- The loop of the raw strategy reads one value after the other. -/
lemma whileShort_raw (backend : Backend) (length : ℕ) {rounds : ℕ} {s : Decoding}
    (hrounds : length - s.values.length < rounds) :
    whileShort length (rawRound backend length) rounds s =
      oneByOne (length - s.values.length) s := by
  induction rounds generalizing s with
  | zero => exact absurd hrounds (Nat.not_lt_zero _)
  | succ rounds ih =>
      rw [whileShort, get_bind_run]
      by_cases hshort : s.values.length < length
      · rw [if_pos hshort]
        by_cases hhere : Tape.Here s.cursor ([] : List UInt8)
        · obtain ⟨count, t, htlen, hle, hslow, hmore, hdone⟩ := rawRound_eq backend hhere hshort
          rcases Nat.lt_or_ge t.values.length length with hlt | hge
          · -- the round ends with a varint
            obtain ⟨n, hn⟩ : ∃ n, length - s.values.length = count + (n + 1) :=
              ⟨length - s.values.length - count - 1, by omega⟩
            rw [hn, hslow (n + 1), oneByOne, bind_run, hmore hlt, bind_run]
            rcases hvalue : rawValue t with ⟨_ | _ | _ | _, u⟩
            · have hulen := rawValue_length hvalue
              have hleft : length - u.values.length = n := by omega
              dsimp only
              rw [ih (by omega), hleft]
            all_goals rfl
          · obtain ⟨hround, hpos⟩ := hdone (by omega)
            have hslow := hslow 0
            rw [Nat.add_zero] at hslow
            rw [bind_of_ok hround, show length - s.values.length = count by omega, hslow,
              ih (by omega), show length - t.values.length = 0 by omega]
        · -- outside of the input both fail alike
          have htake := take_of_not_here hhere
          obtain ⟨n, hn⟩ : ∃ n, length - s.values.length = n + 1 :=
            ⟨length - s.values.length - 1, by omega⟩
          have hread : ∀ k, reading (take k) s = (.err .unexpectedEnd, s) := by
            intro k
            rw [reading, htake]
          have hvarint : varint s.cursor = (.err .unexpectedEnd, s.cursor) :=
            bind_of_err (bind_of_err (htake 1))
          have hvalue : rawValue s = (.err .unexpectedEnd, s) := by
            refine bind_of_err ?_
            rw [reading, hvarint]
          have hround : rawRound backend length s = (.err .unexpectedEnd, s) := by
            rw [rawRound, get_bind_run]
            exact bind_of_err (hread _)
          rw [hn, oneByOne]
          exact (bind_of_err hround).trans (bind_of_err hvalue).symm
      · rw [if_neg hshort, show length - s.values.length = 0 by omega]
        rfl

/-- The plain prefix is a short cut. -/
lemma decodeValues_raw (backend : Backend) (length : ℕ) (s : Decoding) :
    decodeValues backend .raw length s = oneByOne (length - s.values.length) s :=
  whileShort_raw backend length (by omega)

end RustBinary.Adaptive
