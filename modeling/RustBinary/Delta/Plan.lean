import RustBinary.Delta.Updates
import RustBinary.Lib.Fifo

/-!
# Frames as lists of entries

A batch of updates is planned as a list of entries, each a reference or a literal; the frame
spells the plan, and the table moves by its literals alone.  The decoder reads the entries one
after the other and moves its table in the same way.
-/

namespace RustBinary.Delta

open Lib Lib.Outcome

/-! ## Tables under several inserts -/

namespace DeltaTable

/-- The table after several inserts. -/
def insertedAll (t : DeltaTable) (values : List (List UInt8)) : DeltaTable :=
  values.foldl inserted t

lemma insertedAll_maxEntries (t : DeltaTable) (values : List (List UInt8)) :
    (t.insertedAll values).maxEntries = t.maxEntries := by
  induction values generalizing t with
  | nil => rfl
  | cons v values ih =>
      rw [insertedAll, List.foldl_cons, ← insertedAll, ih, inserted_maxEntries]

lemma insertedAll_entries (t : DeltaTable) (values : List (List UInt8)) :
    (t.insertedAll values).entries = pushAll t.maxEntries values t.entries := by
  induction values generalizing t with
  | nil => exact (pushAll_nil t.length_le).symm
  | cons v values ih =>
      rw [insertedAll, List.foldl_cons, ← insertedAll, ih, inserted_maxEntries, inserted_entries,
        pushAll_cons]
      rfl

lemma insertedAll_eq_self_iff (t : DeltaTable) (values : List (List UInt8)) :
    t.insertedAll values = t ↔ pushAll t.maxEntries values t.entries = t.entries := by
  rw [← insertedAll_entries]
  exact ⟨fun h => congrArg entries h, fun h => ext h (insertedAll_maxEntries t values)⟩

lemma lookup_eq_none_iff {t : DeltaTable} {value : List UInt8} :
    t.lookup value = none ↔ value ∉ t.entries := by
  rw [lookup, List.findIdx?_eq_none_iff]
  constructor
  · intro h hmem
    simpa using h value hmem
  · intro h entry hentry
    rw [beq_eq_false_iff_ne]
    exact fun heq => h (heq ▸ hentry)

/-- A value that has been looked up is found there. -/
lemma get_of_lookup {t : DeltaTable} {value : List UInt8} {index : ℕ}
    (h : t.lookup value = some index) : t.get index = some value ∧ index ≤ u64Max := by
  rw [lookup, List.findIdx?_eq_some_iff_getElem] at h
  obtain ⟨hlt, heq, -⟩ := h
  have hlen := t.length_le
  have hmax := t.maxEntries_le
  refine ⟨?_, by omega⟩
  rw [get, List.getElem?_eq_getElem hlt, beq_iff_eq.mp heq]

end DeltaTable

/-! ## Entries -/

/-- An entry of a frame. -/
inductive Entry where
  | ref (index : ℕ)
  | literal (value : List UInt8)
deriving DecidableEq, Repr

/-- The bytes of an entry. -/
def Entry.encode : Entry → List UInt8
  | .ref index => tagRef :: leb128 index
  | .literal value => (tagLiteral :: leb128 value.length) ++ value

/-- The literal values of some entries. -/
def literals : List Entry → List (List UInt8)
  | [] => []
  | .ref _ :: entries => literals entries
  | .literal value :: entries => value :: literals entries

/-- The entries of a batch: a reference to every value that the table holds when its turn
comes, and a literal for every other. -/
def plan : DeltaTable → List (List UInt8) → List Entry
  | _, [] => []
  | t, value :: updates =>
      match t.lookup value with
      | some index => .ref index :: plan t updates
      | none => .literal value :: plan (t.inserted value) updates

/-- The loop of the encoder spells the plan and inserts its literals. -/
lemma encodeEntries_run (updates : List (List UInt8)) (payload : List UInt8) (t : DeltaTable) :
    encodeEntries updates payload t =
      (ok (payload ++ (plan t updates).flatMap Entry.encode),
        t.insertedAll (literals (plan t updates))) := by
  induction updates generalizing payload t with
  | nil => simp [encodeEntries, plan, literals, DeltaTable.insertedAll]
  | cons value updates ih =>
      rw [encodeEntries, Act.get_bind_run, plan]
      cases h : t.lookup value with
      | some index =>
          simp only [ih, literals, List.flatMap_cons, Entry.encode, List.append_assoc]
      | none =>
          simp only [DeltaTable.insert_bind_run, ih, literals, List.flatMap_cons, Entry.encode,
            List.append_assoc,
            DeltaTable.insertedAll, List.foldl_cons]

/-- Only values that the table does not hold are literals. -/
lemma fresh_plan (t : DeltaTable) (updates : List (List UInt8)) :
    Fresh t.maxEntries t.entries (literals (plan t updates)) := by
  induction updates generalizing t with
  | nil => trivial
  | cons value updates ih =>
      rw [plan]
      cases h : t.lookup value with
      | some index => exact ih t
      | none =>
          refine ⟨DeltaTable.lookup_eq_none_iff.mp h, ?_⟩
          have hrest := ih (t.inserted value)
          rw [DeltaTable.inserted_maxEntries, DeltaTable.inserted_entries] at hrest
          exact hrest

/-! ## Reading entries -/

namespace DeltaCursor

/-- The cursor that has read `pre` and has `post` left. -/
def here (pre post : List UInt8) : DeltaCursor := ⟨pre ++ post, pre.length⟩

lemma byte_here (pre : List UInt8) (b : UInt8) (post : List UInt8) :
    (here pre (b :: post)).byte = ok (b, here (pre ++ [b]) post) := by
  simp [byte, here]

lemma take_here {pre bytes post : List UInt8} (h : (pre ++ bytes ++ post).length ≤ u64Max) :
    (here pre (bytes ++ post)).take bytes.length = ok (bytes, here (pre ++ bytes) post) := by
  have hadd : checkedAdd pre.length bytes.length = some (pre.length + bytes.length) := by
    rw [checkedAdd, if_pos]
    simp only [List.length_append] at h
    omega
  simp only [take, here, hadd, slice_append]
  simp

lemma finish_here (pre : List UInt8) : (here pre []).finish = ok () := by
  simp [finish, here]

lemma low_bits (b : UInt8) : (b &&& 0x7f).toNat = b.toNat % 128 := by
  rw [UInt8.toNat_and]
  exact Nat.and_two_pow_sub_one_eq_mod b.toNat 7

lemma high_bit (b : UInt8) : b &&& 0x80 = 0 ↔ b.toNat < 128 := by
  have hbits : ∀ v : BitVec 8, v &&& 128#8 = 0#8 ↔ v.toNat < 128 := by decide
  rw [← UInt8.toBitVec_inj]
  exact hbits b.toBitVec

lemma byte_here_nil (pre : List UInt8) : (here pre []).byte = err .unexpectedEnd := by
  simp [byte, here]

/-- The group that is read goes above the bits that have been read. -/
lemma or_shiftLeft {acc shift : ℕ} (hacc : acc < 2 ^ shift) (low : ℕ) :
    acc ||| low <<< shift = acc + 2 ^ shift * low := by
  rw [Nat.or_comm, ← Nat.shiftLeft_add_eq_or_of_lt hacc, Nat.shiftLeft_eq]
  ring

/-- What the loop accepts: the bytes of an integer of which no bit is above the word. -/
lemma varintLoop_eq_ok {n shift acc value : ℕ} {c : DeltaCursor} (pre bytes : List UInt8)
    (hround : 128 ≤ 7 * n + shift) (hacc : acc < 2 ^ shift) :
    varintLoop n shift acc (here pre bytes) = ok (value, c) ↔
      ∃ bs post, bytes = bs ++ post ∧ Terminated bs ∧ shift + 7 * (bs.length - 1) < 128 ∧
        leb128Value bs < 2 ^ (128 - shift) ∧ value = acc + 2 ^ shift * leb128Value bs ∧
        c = here (pre ++ bs) post := by
  induction n generalizing shift acc pre bytes with
  | zero =>
      refine iff_of_false (fun h => ?_) ?_
      · rw [varintLoop] at h
        cases h
      · rintro ⟨bs, post, -, -, hshift, -⟩
        omega
  | succ n ih =>
      rw [varintLoop]
      cases bytes with
      | nil =>
          rw [byte_here_nil]
          refine iff_of_false (fun h => by cases h) ?_
          rintro ⟨bs, post, hbytes, hterminated, -⟩
          obtain ⟨rfl, -⟩ := List.append_eq_nil_iff.mp hbytes.symm
          exact hterminated
      | cons byte bytes =>
          rw [byte_here]
          dsimp only
          have hcons : ∀ {bs post : List UInt8}, byte :: bytes = bs ++ post → Terminated bs →
              ∃ rest, bs = byte :: rest ∧ bytes = rest ++ post := by
            intro bs post hbytes hterminated
            cases bs with
            | nil => exact hterminated.elim
            | cons head rest =>
                obtain ⟨rfl, rfl⟩ := List.cons.inj hbytes
                exact ⟨rest, rfl, rfl⟩
          by_cases hshift : 128 ≤ shift
          · rw [if_pos hshift]
            refine iff_of_false (fun h => by cases h) ?_
            rintro ⟨bs, post, -, -, hlen, -⟩
            omega
          rw [if_neg hshift, low_bits, or_shiftLeft hacc, Nat.shiftRight_eq_div_pow]
          by_cases hover : 128 - shift < 7 ∧ byte.toNat % 128 / 2 ^ (128 - shift) ≠ 0
          · -- a bit of the group is above the word
            rw [if_pos hover]
            refine iff_of_false (fun h => by cases h) ?_
            rintro ⟨bs, post, hbytes, hterminated, -, hlt, -⟩
            obtain ⟨rest, rfl, -⟩ := hcons hbytes hterminated
            rw [leb128Value] at hlt
            exact hover.2 (Nat.div_eq_of_lt (by omega))
          rw [if_neg hover]
          by_cases hlast : byte.toNat < 128
          · have hfits : byte.toNat < 2 ^ (128 - shift) := by
              rcases Nat.lt_or_ge (128 - shift) 7 with hless | hmore
              · have hzero := not_not.mp fun hne => hover ⟨hless, hne⟩
                rw [Nat.mod_eq_of_lt hlast] at hzero
                exact (Nat.div_eq_zero_iff_lt (Nat.two_pow_pos _)).mp hzero
              · have hpow : 2 ^ 7 ≤ 2 ^ (128 - shift) := Nat.pow_le_pow_right (by decide) hmore
                omega
            rw [if_pos ((high_bit byte).mpr hlast), Outcome.ok.injEq, Prod.mk.injEq,
              Nat.mod_eq_of_lt hlast]
            constructor
            · rintro ⟨rfl, rfl⟩
              refine ⟨[byte], bytes, rfl, (terminated_of_lt hlast []).mpr rfl, ?_, ?_, ?_, rfl⟩
              · rw [List.length_singleton]
                omega
              · rw [leb128Value_singleton hlast]
                exact hfits
              · rw [leb128Value_singleton hlast]
            · rintro ⟨bs, post, hbytes, hterminated, -, -, rfl, rfl⟩
              obtain ⟨rest, rfl, rfl⟩ := hcons hbytes hterminated
              obtain rfl := (terminated_of_lt hlast rest).mp hterminated
              exact ⟨by rw [leb128Value_singleton hlast], rfl⟩
          · have hgroup : acc + 2 ^ shift * (byte.toNat % 128) < 2 ^ (shift + 7) := by
              have hstep : 2 ^ shift * (byte.toNat % 128) ≤ 2 ^ shift * 127 :=
                Nat.mul_le_mul_left _ (by omega)
              rw [pow_add]
              omega
            have hvalue : ∀ rest : ℕ, acc + 2 ^ shift * (byte.toNat % 128) + 2 ^ (shift + 7) * rest =
                acc + 2 ^ shift * (byte.toNat % 128 + 128 * rest) := by
              intro rest
              rw [pow_add]
              ring
            rw [if_neg (fun h => hlast ((high_bit byte).mp h)),
              ih (pre ++ [byte]) bytes (by omega) hgroup]
            have hbound : ∀ rest : List UInt8, Terminated rest →
                (shift + 7 + 7 * (rest.length - 1) < 128 ∧
                    leb128Value rest < 2 ^ (128 - (shift + 7)) ↔
                  shift + 7 * ((byte :: rest).length - 1) < 128 ∧
                    leb128Value (byte :: rest) < 2 ^ (128 - shift)) := by
              intro rest hterminated
              have hpos : 0 < rest.length := List.length_pos_iff.mpr fun hnil =>
                not_terminated_nil (hnil ▸ hterminated)
              rw [List.length_cons, leb128Value]
              by_cases hroom : shift + 7 * rest.length < 128
              · have hsplit : (2 : ℕ) ^ (128 - shift) = 2 ^ (128 - (shift + 7)) * 2 ^ 7 := by
                  rw [← pow_add]
                  congr 1
                  omega
                rw [hsplit]
                omega
              · omega
            constructor
            · rintro ⟨rest, post, rfl, hterminated, hlen, hlt, rfl, rfl⟩
              obtain ⟨hlen, hlt⟩ := (hbound rest hterminated).mp ⟨hlen, hlt⟩
              exact ⟨byte :: rest, post, rfl, (terminated_of_ge hlast rest).mpr hterminated, hlen,
                hlt, hvalue _, by rw [List.append_assoc, List.singleton_append]⟩
            · rintro ⟨bs, post, hbytes, hterminated, hlen, hlt, rfl, rfl⟩
              obtain ⟨rest, rfl, rfl⟩ := hcons hbytes hterminated
              have hrest := (terminated_of_ge hlast rest).mp hterminated
              obtain ⟨hlen, hlt⟩ := (hbound rest hrest).mpr ⟨hlen, hlt⟩
              exact ⟨rest, post, rfl, hrest, hlen, hlt, (hvalue _).symm,
                by rw [List.append_assoc, List.singleton_append]⟩

lemma varint_eq_ok {value : ℕ} {c : DeltaCursor} (pre bytes : List UInt8) :
    (here pre bytes).varint = ok (value, c) ↔
      ∃ bs post, bytes = bs ++ post ∧ Terminated bs ∧ bs.length ≤ 19 ∧
        leb128Value bs < 2 ^ 128 ∧ value = leb128Value bs ∧ c = here (pre ++ bs) post := by
  rw [varint, varintLoop_eq_ok pre bytes (by decide) (by decide)]
  have hlen : ∀ bs : List UInt8, 7 * (bs.length - 1) < 128 ↔ bs.length ≤ 19 := by
    intro bs
    omega
  simp only [Nat.sub_zero, pow_zero, one_mul, Nat.zero_add, hlen]

lemma varint_here {value : ℕ} (pre post : List UInt8) (h : value ≤ u64Max) :
    (here pre (leb128 value ++ post)).varint = ok (value, here (pre ++ leb128 value) post) := by
  have hlt : value < 2 ^ 128 := by
    rw [u64Max] at h
    omega
  obtain ⟨hterminated, hvalue⟩ := terminated_leb128 value
  have hlen := length_leb128_lt (by decide) hlt
  exact (varint_eq_ok pre _).mpr ⟨leb128 value, post, rfl, hterminated, by omega,
    hvalue.symm ▸ hlt, hvalue.symm, rfl⟩

end DeltaCursor

/-- Reads one entry, before the table is looked at. -/
def readEntry (c : DeltaCursor) : Outcome Error (Entry × DeltaCursor) := do
  let (tag, c) ← c.byte
  if tag = tagRef then
    let (index, c) ← c.varint
    if index ≤ u64Max then .ok (.ref index, c)
    else .err (.delta "delta table index does not fit usize")
  else if tag = tagLiteral then
    let (length, c) ← c.usizeVarint
    let (value, c) ← c.take length
    .ok (.literal value, c)
  else .err (.delta "unknown delta entry tag")

/-- What one round of the decoder does with the entry it reads. -/
lemma decodeEntries_succ (n : ℕ) (c : DeltaCursor) (updates : List (List UInt8)) (t : DeltaTable) :
    decodeEntries (n + 1) c updates t =
      match readEntry c with
      | .ok (.ref index, c) =>
          match t.get index with
          | some value => decodeEntries n c (updates ++ [value]) t
          | none => (.err (.delta "delta table reference out of range"), t)
      | .ok (.literal value, c) => decodeEntries n c (updates ++ [value]) (t.inserted value)
      | .err e => (.err e, t)
      | .panic => (.panic, t)
      | .diverge => (.diverge, t) := by
  rw [decodeEntries, readEntry]
  cases c.byte with
  | err e => rfl
  | panic => rfl
  | diverge => rfl
  | ok read =>
      obtain ⟨tag, c⟩ := read
      simp only [lift_ok_bind_run, ok_bind]
      by_cases href : tag = tagRef
      · simp only [href, if_true]
        cases c.varint with
        | err e => rfl
        | panic => rfl
        | diverge => rfl
        | ok read =>
            obtain ⟨index, c⟩ := read
            simp only [lift_ok_bind_run, ok_bind]
            by_cases hfits : index ≤ u64Max
            · simp only [hfits, if_true, Act.get_bind_run]
              cases t.get index <;> rfl
            · simp only [hfits, if_false]
              rfl
      · by_cases hlit : tag = tagLiteral
        · rw [if_neg href, if_neg href, if_pos hlit, if_pos hlit]
          cases c.usizeVarint with
          | err e => rfl
          | panic => rfl
          | diverge => rfl
          | ok read =>
              obtain ⟨length, c⟩ := read
              simp only [lift_ok_bind_run, ok_bind]
              cases c.take length with
              | err e => rfl
              | panic => rfl
              | diverge => rfl
              | ok read => rfl
        · rw [if_neg href, if_neg href, if_neg hlit, if_neg hlit]
          rfl

end RustBinary.Delta
