import RustBinary.Lib.Record
import RustBinary.Lz.Bits

/-!
# Decompression of every input

`decompress` once more, with a record of the longest output that it has held.  A round starts below
the declared length and makes the output longer by at least one byte and at most the longest match,
so that the loop ends, and the output passes the declared length by less than a match.
-/

namespace RustBinary.Lz

open Lib Lib.Act Lib.Tape

/-! ## The record -/

/-- An action on the reader, with the longest output so far beside it. -/
abbrev Peaked (α : Type) : Type := Act (BitReader × ℕ) LzError α

/-- `push`. -/
def push (output : List UInt8) (byte : UInt8) : Peaked (List UInt8) := do
  record fun peak => max peak (output.length + 1)
  pure (output ++ [byte])

/-- The copy loop, with the lengths of the output. -/
def copyBackTraced (start distance : ℕ) : ℕ → List UInt8 → Peaked (List UInt8)
  | 0, output => pure output
  | i + 1, output => do
      let output ← copyBackTraced start distance i output
      let src ← beside (call (Outcome.orPanic output[start + i - distance]?))
      push output src

/-- A round of `decompress`, with the lengths of the output. -/
def decodeTokenTraced (declared : ℕ) (output : List UInt8) : Peaked (List UInt8 ⊕ List UInt8) := do
  if output.length < declared then
    let isMatch ← beside BitReader.readBit
    if isMatch then
      let length ← beside (BitReader.readBits 8)
      let distance ← beside (BitReader.readBits 15)
      if output.length < distance.toNat + 1 then throw .invalidDistance
      else
        let output ← copyBackTraced output.length (distance.toNat + 1) (length.toNat + minMatch)
          output
        pure (.inl output)
    else
      let byte ← beside (BitReader.readBits 8)
      let output ← push output byte.toUInt8
      pure (.inl output)
  else pure (.inr output)

/-- The end of `decompress`. -/
def checkLength (declared : ℕ) (output : List UInt8) : Act BitReader LzError (List UInt8) :=
  if output.length ≠ declared then throw .lengthMismatch else pure output

/-- `decompress`, with the lengths of the output. -/
def decompressTraced (expected : ℕ) : Peaked (List UInt8) := do
  let declared ← beside BitReader.readU32
  if expected < declared.toNat then throw .lengthMismatch
  else
    let output ← iterate (decodeTokenTraced declared.toNat) (declared.toNat + 1) []
    beside (checkLength declared.toNat output)

/-- The longest output that a call of `decompress` holds. -/
def peak (input : List UInt8) (expected : ℕ) : ℕ :=
  (decompressTraced expected (BitReader.new input, 0)).2.2

/-! ## The record changes nothing -/

lemma traces_push (output : List UInt8) (byte : UInt8) :
    Traces (push output byte) (pure (output ++ [byte])) := fun _ => rfl

lemma call_bind {σ ε α β : Type} (o : Outcome ε α) (f : α → Outcome ε β) :
    (call (o >>= f) : Act σ ε β) = call o >>= fun a => call (f a) := by
  refine ext_run fun s => ?_
  cases o <;> rfl

lemma traces_copyBackTraced (start distance i : ℕ) (output : List UInt8) :
    Traces (copyBackTraced start distance i output) (call (copyBack start distance i output)) := by
  induction i with
  | zero => exact traces_pure output
  | succ i ih =>
      rw [copyBack, call_bind]
      refine ih.bind fun output => ?_
      rw [call_bind]
      exact (traces_beside _).bind fun src => traces_push output src

lemma traces_decodeTokenTraced (declared : ℕ) (output : List UInt8) :
    Traces (decodeTokenTraced declared output) (decodeToken declared output) := by
  refine Traces.ite ((traces_beside _).bind fun isMatch => Traces.ite ?_ ?_) (traces_pure _)
  · refine (traces_beside _).bind fun length => (traces_beside _).bind fun distance => ?_
    refine Traces.ite (traces_throw _) ?_
    exact (traces_copyBackTraced _ _ _ output).bind fun output => traces_pure _
  · exact (traces_beside _).bind fun byte => fun _ => rfl

lemma decompress_eq (input : List UInt8) (expected : ℕ) :
    decompress input expected = (decompressTraced expected (BitReader.new input, 0)).1 := by
  have htraces : Traces (decompressTraced expected) (do
      let declared ← BitReader.readU32
      if expected < declared.toNat then throw .lengthMismatch
      else
        let output ← iterate (decodeToken declared.toNat) (declared.toNat + 1) []
        checkLength declared.toNat output) := by
    refine (traces_beside _).bind fun declared => Traces.ite (traces_throw _) ?_
    exact (Traces.iterate (traces_decodeTokenTraced declared.toNat) _ _).bind fun output =>
      traces_beside _
  exact (htraces.fst_eq (BitReader.new input, 0)).symm

/-! ## The reader -/

namespace BitReader

lemma position_advance (s : BitReader) (n : ℕ) :
    (advance s n : BitReader).position = s.position + n := position_seek _ _

lemma readBit_cases (s : BitReader) :
    (∃ bit, readBit s = (.ok bit, s.next) ∧ s.bytePos < s.bytes.length) ∨
      readBit s = (.err .unexpectedEnd, s) := by
  rw [readBit, get_bind_run]
  cases hbyte : s.bytes[s.bytePos]? with
  | none => exact .inr rfl
  | some byte => exact .inl ⟨_, rfl, (List.getElem?_eq_some_iff.mp hbyte).1⟩

/-- The bits that are read are bits of the input. -/
lemma readBits_cases (count : ℕ) (hcount : count ≤ 32) (s : BitReader) :
    (∃ value, readBits count s = (.ok value, advance s count) ∧ value.toNat < 2 ^ count ∧
        (0 < count → s.position + count ≤ 8 * s.bytes.length)) ∨
      ∃ t, readBits count s = (.err .unexpectedEnd, t) := by
  induction count with
  | zero =>
      exact .inl ⟨0, by rw [advance_zero]; rfl, Nat.one_pos, fun h => absurd h (lt_irrefl 0)⟩
  | succ i ih =>
      rw [readBits]
      rcases ih (by omega) with ⟨value, hvalue, hword, -⟩ | ⟨t, ht⟩
      · rw [bind_of_ok hvalue]
        rcases readBit_cases (advance s i) with ⟨bit, hbit, hlt⟩ | hbit
        · refine .inl ⟨_, by rw [bind_of_ok hbit, next_eq, advance_advance]; rfl, ?_, fun _ => ?_⟩
          · have hpow : 2 ^ (i + 1) ≤ 2 ^ 32 := Nat.pow_le_pow_right (by decide) hcount
            have hone : 2 ^ i * bit.toUInt32.toNat ≤ 2 ^ i * 1 := by
              refine Nat.mul_le_mul_left _ ?_
              cases bit <;> decide
            rw [pow_succ] at hpow ⊢
            rw [toNat_or_shiftLeft hword (by omega) (by omega)]
            omega
          · change (s.position + i) / 8 < s.bytes.length at hlt
            omega
        · exact .inr ⟨_, bind_of_err hbit⟩
      · exact .inr ⟨t, bind_of_err ht⟩

/-- The four bytes in front are the declared length. -/
lemma readU32_new (input : List UInt8) :
    (4 ≤ input.length ∧ ∃ t, readU32 (new input) = (.ok (UInt32.ofNat (leNat (input.take 4))), t)) ∨
      ∃ t, readU32 (new input) = (.err .unexpectedEnd, t) := by
  rcases Nat.lt_or_ge input.length 4 with hshort | hlen
  · refine .inr ?_
    rw [readU32]
    rcases readBits_cases 8 (by decide) (new input) with ⟨a, ha, -, -⟩ | ⟨t, ht⟩
    · rw [bind_of_ok ha]
      rcases readBits_cases 8 (by decide) (advance (new input) 8) with
        ⟨b, hb, -, -⟩ | ⟨t, ht⟩
      · rw [bind_of_ok hb]
        rcases readBits_cases 8 (by decide) (advance (advance (new input) 8) 8) with
          ⟨c, hc, -, -⟩ | ⟨t, ht⟩
        · rw [bind_of_ok hc]
          rcases readBits_cases 8 (by decide)
            (advance (advance (advance (new input) 8) 8) 8) with ⟨d, hd, -, hend⟩ | ⟨t, ht⟩
          · have hend := hend (by decide)
            rw [position_advance, position_advance, position_advance] at hend
            change 0 + 8 + 8 + 8 + 8 ≤ 8 * input.length at hend
            omega
          · exact ⟨t, bind_of_err ht⟩
        · exact ⟨t, bind_of_err ht⟩
      · exact ⟨t, bind_of_err ht⟩
    · exact ⟨t, bind_of_err ht⟩
  · refine .inl ⟨hlen, ?_⟩
    have htake : (input.take 4).length = 4 := List.length_take_of_le hlen
    have hword : leNat (input.take 4) < 2 ^ 32 := by
      have := leNat_lt (input.take 4)
      rwa [htake] at this
    have hbits : toBits 32 (leNat (input.take 4)) = unpack (input.take 4) := by
      have := toBits_ofBits (unpack (input.take 4))
      rwa [length_unpack, htake, ofBits_unpack] at this
    have hhere : Here (new input) (toBits 32 (leNat (input.take 4))) := by
      refine ⟨?_, fun limit h => by cases h⟩
      have hslice := slice_append [] (unpack (input.take 4)) (unpack (input.drop 4))
      rw [List.nil_append, ← unpack_append, List.take_append_drop] at hslice
      rw [hbits]
      exact hslice
    exact ⟨_, reads_readU32 _ hword _ hhere⟩

end BitReader

/-! ## The rounds -/

/-- A copy of what has been written makes the output longer, byte by byte. -/
lemma copyBackTraced_run {distance : ℕ} {output : List UInt8} (hpos : 0 < distance)
    (hle : distance ≤ output.length) (i : ℕ) (s : BitReader × ℕ) :
    ∃ after p, copyBackTraced output.length distance i output s = (.ok after, (s.1, p)) ∧
      after.length = output.length + i ∧ p ≤ max s.2 (output.length + i) := by
  induction i with
  | zero => exact ⟨output, s.2, rfl, rfl, Nat.le_max_left _ _⟩
  | succ i ih =>
      obtain ⟨after, p, hrun, hlen, hp⟩ := ih
      have hsrc : output.length + i - distance < after.length := by omega
      refine ⟨after ++ [after[output.length + i - distance]], max p (after.length + 1), ?_, ?_, ?_⟩
      · rw [copyBackTraced, bind_of_ok hrun, List.getElem?_eq_getElem hsrc]
        rfl
      · rw [List.length_append, List.length_singleton, hlen]
        rfl
      · omega

/-- A round below the declared length fails, or makes the output longer by no more than a
match. -/
lemma decodeTokenTraced_run {declared : ℕ} {output : List UInt8} (h : output.length < declared)
    {s : BitReader × ℕ} (hs : s.2 ≤ declared + 257) :
    (∃ e t, decodeTokenTraced declared output s = (.err e, t) ∧ t.2 ≤ declared + 257) ∨
      ∃ after t, decodeTokenTraced declared output s = (.ok (.inl after), t) ∧
        output.length < after.length ∧ t.2 ≤ declared + 257 := by
  rw [decodeTokenTraced, if_pos h]
  rcases BitReader.readBit_cases s.1 with ⟨isMatch, hflag, -⟩ | hflag
  · have hflag' : (beside BitReader.readBit : Peaked Bool) s = (.ok isMatch, (s.1.next, s.2)) := by
      rw [beside_run, hflag]
    rw [bind_of_ok hflag']
    cases isMatch with
    | true =>
        rw [if_pos rfl]
        rcases BitReader.readBits_cases 8 (by decide) s.1.next with
          ⟨length, hlength, hword, -⟩ | ⟨t, ht⟩
        · have hlength' : (beside (BitReader.readBits 8) : Peaked UInt32) (s.1.next, s.2) =
              (.ok length, (advance s.1.next 8, s.2)) := by
            rw [beside_run, hlength]
          rw [bind_of_ok hlength']
          rcases BitReader.readBits_cases 15 (by decide) (advance s.1.next 8) with
            ⟨distance, hdistance, -, -⟩ | ⟨t, ht⟩
          · have hdistance' : (beside (BitReader.readBits 15) : Peaked UInt32)
                (advance s.1.next 8, s.2) =
                (.ok distance, (advance (advance s.1.next 8) 15, s.2)) := by
              rw [beside_run, hdistance]
            rw [bind_of_ok hdistance']
            by_cases hfar : output.length < distance.toNat + 1
            · rw [if_pos hfar]
              exact .inl ⟨_, _, rfl, hs⟩
            · rw [if_neg hfar]
              obtain ⟨after, p, hrun, hlen, hp⟩ := copyBackTraced_run
                (Nat.succ_pos distance.toNat) (Nat.le_of_not_lt hfar) (length.toNat + minMatch)
                (advance (advance s.1.next 8) 15, s.2)
              refine .inr ⟨after, _, by rw [bind_of_ok hrun]; rfl, ?_, ?_⟩
              · rw [hlen, minMatch]
                omega
              · rw [minMatch] at hp
                dsimp only at hp ⊢
                omega
          · refine .inl ⟨.unexpectedEnd, (t, s.2), bind_of_err ?_, hs⟩
            rw [beside_run, ht]
        · refine .inl ⟨.unexpectedEnd, (t, s.2), bind_of_err ?_, hs⟩
          rw [beside_run, ht]
    | false =>
        rw [if_neg Bool.false_ne_true]
        rcases BitReader.readBits_cases 8 (by decide) s.1.next with
          ⟨byte, hbyte, -, -⟩ | ⟨t, ht⟩
        · have hbyte' : (beside (BitReader.readBits 8) : Peaked UInt32) (s.1.next, s.2) =
              (.ok byte, (advance s.1.next 8, s.2)) := by
            rw [beside_run, hbyte]
          refine .inr ⟨output ++ [byte.toUInt8], _, by rw [bind_of_ok hbyte']; rfl, ?_, ?_⟩
          · rw [List.length_append, List.length_singleton]
            exact Nat.lt_succ_self _
          · show max s.2 (output.length + 1) ≤ declared + 257
            omega
        · refine .inl ⟨.unexpectedEnd, (t, s.2), bind_of_err ?_, hs⟩
          rw [beside_run, ht]
  · refine .inl ⟨.unexpectedEnd, (s.1, s.2), bind_of_err ?_, hs⟩
    rw [beside_run, hflag]

/-- The loop comes back, and the output has passed the declared length by less than a match. -/
lemma rounds_run (declared n : ℕ) (output : List UInt8) {s : BitReader × ℕ}
    (hn : declared - output.length < n) (hs : s.2 ≤ declared + 257) :
    ((iterate (decodeTokenTraced declared) n output s).1.Returned) ∧
      (iterate (decodeTokenTraced declared) n output s).2.2 ≤ declared + 257 := by
  induction n generalizing output s with
  | zero => exact absurd hn (Nat.not_lt_zero _)
  | succ n ih =>
      rw [iterate]
      by_cases hlt : output.length < declared
      · rcases decodeTokenTraced_run hlt hs with ⟨e, t, hrun, ht⟩ | ⟨after, t, hrun, hmore, ht⟩
        · rw [bind_of_err hrun]
          exact ⟨trivial, ht⟩
        · rw [bind_of_ok hrun]
          exact ih after (by omega) ht
      · have hend : decodeTokenTraced declared output s = (.ok (.inr output), s) := by
          rw [decodeTokenTraced, if_neg hlt]
          rfl
        rw [bind_of_ok hend]
        exact ⟨trivial, hs⟩

/-- Decompression of any input within any bound comes back; what it returns has the length that
the input declares, which is within the bound; and the output that it holds passes the declared
length by at most 257 bytes. -/
theorem decompress_robust (input : List UInt8) (expected : ℕ) :
    (decompress input expected).Returned ∧
      (∀ output, decompress input expected = .ok output → 4 ≤ input.length ∧
        output.length = leNat (input.take 4) ∧ output.length ≤ expected) ∧
      peak input expected ≤ leNat (input.take 4) + 257 := by
  have hword : 4 ≤ input.length → leNat (input.take 4) < 2 ^ 32 := by
    intro hlen
    have := leNat_lt (input.take 4)
    rwa [List.length_take_of_le hlen] at this
  rw [decompress_eq, peak, decompressTraced]
  rcases BitReader.readU32_new input with ⟨hlen, t, hread⟩ | ⟨t, hread⟩
  · have hread' : (beside BitReader.readU32 : Peaked UInt32) (BitReader.new input, 0) =
        (.ok (UInt32.ofNat (leNat (input.take 4))), (t, 0)) := by
      rw [beside_run, hread]
    have hnat : (UInt32.ofNat (leNat (input.take 4))).toNat = leNat (input.take 4) := by
      rw [UInt32.toNat_ofNat', Nat.mod_eq_of_lt (hword hlen)]
    rw [bind_of_ok hread', hnat]
    by_cases hbound : expected < leNat (input.take 4)
    · rw [if_pos hbound]
      refine ⟨trivial, fun output h => ?_, Nat.zero_le _⟩
      cases h
    · rw [if_neg hbound]
      have hloop := rounds_run (leNat (input.take 4)) (leNat (input.take 4) + 1) []
        (s := (t, 0)) (Nat.lt_succ_self _) (Nat.zero_le _)
      rw [bind_run]
      rcases hrun : iterate (decodeTokenTraced (leNat (input.take 4)))
        (leNat (input.take 4) + 1) [] (t, 0) with ⟨output | e | _ | _, u⟩ <;>
        rw [hrun] at hloop
      · by_cases hlength : output.length ≠ leNat (input.take 4)
        · have hcheck : (beside (checkLength (leNat (input.take 4)) output) : Peaked _) u =
              (.err .lengthMismatch, u) := by
            rw [beside_run, checkLength, if_pos hlength]
            rfl
          dsimp only
          rw [hcheck]
          refine ⟨trivial, fun output h => ?_, hloop.2⟩
          cases h
        · have hcheck : (beside (checkLength (leNat (input.take 4)) output) : Peaked _) u =
              (.ok output, u) := by
            rw [beside_run, checkLength, if_neg hlength]
            rfl
          dsimp only
          rw [hcheck]
          refine ⟨trivial, fun output' h => ?_, hloop.2⟩
          cases h
          have heq := not_not.mp hlength
          exact ⟨hlen, heq, by omega⟩
      · refine ⟨trivial, fun output h => ?_, hloop.2⟩
        cases h
      · exact hloop.1.elim
      · exact hloop.1.elim
  · have hread' : (beside BitReader.readU32 : Peaked UInt32) (BitReader.new input, 0) =
        (.err .unexpectedEnd, (t, 0)) := by
      rw [beside_run, hread]
    rw [bind_of_err hread']
    refine ⟨trivial, fun output h => ?_, Nat.zero_le _⟩
    cases h

end RustBinary.Lz
