import RustBinary.Cbor.Reading

/-!
# What integers are read as

An integer is the argument of a head, or the magnitude of a bignum; a negative one with the
magnitude `m` stands for `-1 - m`.  The decoder keeps the magnitude of a negative bignum in an
`i128`, so that one of `2 ^ 127` or more wraps around.

The decoder may be anywhere: inside a definite container that is full, or in front of its limit.
Then reading fails.
-/

namespace RustBinary.Cbor

open Lib Lib.Act CborDecoder

/-- The integer that is encoded. -/
def Numeral.integer : Numeral → Option ℤ
  | unsigned a => some a.value
  | negative a => some (-1 - (a.value : ℤ))
  | bignum false _ payload _ => some (beNat payload.bytes)
  | bignum true _ payload _ => some (-1 - (beNat payload.bytes : ℤ))
  | half _ _ => none
  | single _ _ => none
  | double _ _ => none

/-- A negative bignum has a magnitude of at most 127 bits. -/
def Numeral.Narrow : Numeral → Prop
  | bignum true _ payload _ => beNat payload.bytes < 2 ^ 127
  | _ => True

/-- The integer that a number stands for. -/
def integerOf : Number → Option ℤ
  | .u64 value => some value
  | .u128 value => some value
  | .i64 value => some value
  | .i128 value => some value
  | .f64 _ => none

namespace CborDecoder

variable {s : CborDecoder}

/-- The bytes `bs` are at the cursor; the size limit need not admit them. -/
structure Here (s : CborDecoder) (bs : List UInt8) : Prop where
  isPrefix : bs <+: s.input.bytes.drop s.cursor
  inside : s.cursor + bs.length ≤ s.input.bytes.length

/-- `m` fails without an abort. -/
def Fails {α : Type} (m : Dec α) (s : CborDecoder) : Prop := ∃ e t, m s = (.err e, t)

lemma Fails.bind {α β : Type} {m : Dec α} (h : Fails m s) (f : α → Dec β) : Fails (m >>= f) s := by
  obtain ⟨e, t, h⟩ := h
  exact ⟨e, t, bind_of_err h⟩

lemma Fails.of_bind {α β : Type} {m : Dec α} {f : α → Dec β} {a : α} {t : CborDecoder}
    (hm : m s = (.ok a, t)) (h : Fails (f a) t) : Fails (m >>= f) s := by
  obtain ⟨e, u, h⟩ := h
  exact ⟨e, u, (bind_of_ok hm).trans h⟩

lemma Here.next {bs : List UInt8} (h : Here s bs) (hlim : s.Admits (s.cursor + bs.length)) :
    Next s bs := ⟨h.isPrefix, h.inside, hlim⟩

lemma Here.left {a b : List UInt8} (h : Here s (a ++ b)) : Here s a := by
  have hlen : (a ++ b).length = a.length + b.length := List.length_append
  exact ⟨(List.prefix_append a b).trans h.isPrefix, by have := h.inside; omega⟩

lemma Here.right {a b : List UInt8} (h : Here s (a ++ b)) : Here (s.advance a.length) b := by
  have hlen : (a ++ b).length = a.length + b.length := List.length_append
  refine ⟨?_, ?_⟩
  · obtain ⟨rest, hrest⟩ := h.isPrefix
    refine ⟨rest, ?_⟩
    change b ++ rest = s.input.bytes.drop (s.cursor + a.length)
    rw [← List.drop_drop, ← hrest, List.append_assoc, List.drop_left]
  · have := h.inside
    change s.cursor + a.length + b.length ≤ s.input.bytes.length
    omega

/-! ## In front of the limit -/

lemma take_fails {len : ℕ} (hlim : ¬ s.Admits (s.cursor + len)) : Fails (orFail (take len)) s := by
  rcases take_cases s len with ⟨out, -, hadmits, -⟩ | ⟨-, e, h⟩
  · exact absurd hadmits hlim
  · exact ⟨_, _, h⟩

lemma takeExact_fails {len : ℕ} (hlim : ¬ s.Admits (s.cursor + len)) : Fails (takeExact len) s :=
  (take_fails hlim).bind _

/-- A head that the limit cuts off. -/
lemma readHead_fails {major n : ℕ} {width : Width} (hmajor : major < 7) (hn : n < width.bound)
    (h : Here s (head major width n))
    (hlim : ¬ s.Admits (s.cursor + (head major width n).length)) : Fails readHead s := by
  have hne : major ≠ 7 := by omega
  by_cases hfirst : s.Admits (s.cursor + 1)
  · have hwide : ∀ ai w, 24 ≤ ai → ai < 28 → (∀ t, readArgument major ai t = takeValue w t) →
        Here s (UInt8.ofNat (2 ^ 5 * major + ai) :: beBytes w n) →
        ¬ s.Admits (s.cursor + (w + 1)) → Fails readHead s := by
      intro ai w hlo hhi harg hhere hlim
      have hnat : (UInt8.ofNat (2 ^ 5 * major + ai)).toNat = 2 ^ 5 * major + ai := by
        rw [UInt8.toNat_ofNat']
        omega
      have hbyte : Here s ([UInt8.ofNat (2 ^ 5 * major + ai)] ++ beBytes w n) := hhere
      have hhead := readHead_byte (hbyte.left.next hfirst)
      rw [hnat, show (2 ^ 5 * major + ai) / 2 ^ 5 = major by omega,
        show (2 ^ 5 * major + ai) % 2 ^ 5 = ai by omega] at hhead
      have hlim' : ¬ (s.advance 1).Admits ((s.advance 1).cursor + w) := by
        change ¬ s.Admits (s.cursor + 1 + w)
        rwa [Nat.add_assoc, Nat.add_comm 1 w]
      have hvalue : Fails (readArgument major ai) (s.advance 1) := by
        rw [Fails, harg]
        exact (takeExact_fails hlim').bind _
      rw [Fails, hhead]
      exact hvalue.bind _
    cases width with
    | immediate => exact absurd hfirst hlim
    | one =>
        refine hwide 24 1 (by omega) (by omega) (fun t => ?_) h hlim
        rw [readArgument, if_neg hne]
        rfl
    | two =>
        refine hwide 25 2 (by omega) (by omega) (fun t => ?_) h hlim
        rw [readArgument, if_neg hne]
        rfl
    | four =>
        refine hwide 26 4 (by omega) (by omega) (fun t => ?_) h hlim
        rw [readArgument, if_neg hne]
        rfl
    | eight =>
        refine hwide 27 8 (by omega) (by omega) (fun t => ?_) h hlim
        rw [readArgument, if_neg hne]
        rfl
  · exact (takeExact_fails hfirst).bind _

/-! ## Integers -/

lemma readHead_or {major n : ℕ} {width : Width} (hmajor : major < 7) (hn : n < width.bound)
    (h : Here s (head major width n)) :
    readHead s = (.ok (major, .value n), s.advance (head major width n).length) ∨
      Fails readHead s := by
  by_cases hlim : s.Admits (s.cursor + (head major width n).length)
  · exact .inl (readHead_head hmajor hn (h.next hlim))
  · exact .inr (readHead_fails hmajor hn h hlim)

lemma readBignum_or {payload : Chunk} (negative : Bool) (short : payload.bytes.length ≤ 16)
    (h : Here s (payload.encode 2)) :
    readBignum negative s =
        (.ok (.number (if negative then .i128 (-1 - asI128 (beNat payload.bytes))
          else .u128 (beNat payload.bytes))), s.advance (payload.encode 2).length) ∨
      Fails (readBignum negative) s := by
  by_cases hlim : s.Admits (s.cursor + (payload.encode 2).length)
  · exact .inl (readBignum_next negative short (h.next hlim))
  · refine .inr ?_
    rcases readHead_or (by decide) payload.fits h.left with hhead | hfails
    · refine Fails.of_bind hhead ((take_fails ?_).bind _)
      change ¬ s.Admits (s.cursor + (head 2 payload.width payload.bytes.length).length
        + payload.bytes.length)
      rwa [Nat.add_assoc, ← List.length_append]
    · exact hfails.bind _

lemma decRemaining_or : decRemaining s = (.ok (), s.charge) ∨ Fails decRemaining s := by
  by_cases hroom : HasRoom s
  · exact .inl (decRemaining_charge hroom)
  · rcases decRemaining_cases s with ⟨kind, next, hlast, -⟩ | ⟨hlast, -⟩ | ⟨-, h⟩
    · refine absurd (fun kind' hzero => ?_) hroom
      rw [hlast] at hzero
      cases hzero
    · refine absurd (fun kind' hzero => ?_) hroom
      cases hlast _ hzero
    · exact .inr ⟨_, _, h⟩

/-- A round that ends with a token, or fails, is all there is to reading it. -/
lemma readToken_of_round {token : Token}
    (h : (∃ t, tokenRound () s = (.ok (.inr token), t)) ∨ Fails (tokenRound ()) s) :
    (∃ t, readToken s = (.ok token, t)) ∨ Fails readToken s := by
  rcases h with ⟨t, h⟩ | ⟨e, t, h⟩
  · refine .inl ⟨t, ?_⟩
    rw [readToken, get_bind_run, iterate_succ_run, h]
  · refine .inr ⟨e, t, ?_⟩
    rw [readToken, get_bind_run, iterate_succ_run, h]

lemma tokenRound_or {major : ℕ} {argument : HeadArg} {token : Token} {t : CborDecoder}
    (hhead : readHead s = (.ok (major, argument), t) ∨ Fails readHead s)
    (htoken : (∃ u, tokenOf major argument t = (.ok (.inr token), u)) ∨
      Fails (tokenOf major argument) t) :
    (∃ t, readToken s = (.ok token, t)) ∨ Fails readToken s := by
  refine readToken_of_round ?_
  rcases hhead with hhead | hfails
  · rcases htoken with ⟨u, htoken⟩ | hfails
    · exact .inl ⟨u, (bind_of_ok hhead).trans htoken⟩
    · exact .inr (Fails.of_bind hhead hfails)
  · exact .inr (hfails.bind _)

/-- An integer is read as its number, or reading it fails. -/
lemma readToken_integer {value : Numeral} {z : ℤ} (hint : value.integer = some z)
    (h : Here s value.encode) :
    (∃ t, readToken s = (.ok (.number value.value), t)) ∨ Fails readToken s := by
  cases value with
  | unsigned a =>
      refine tokenRound_or (readHead_or (by decide) a.fits h) ?_
      rcases decRemaining_or (s := s.advance (head 0 a.width a.value).length) with hdec | hfails
      · exact .inl ⟨_, (bind_of_ok hdec).trans rfl⟩
      · exact .inr (hfails.bind _)
  | negative a =>
      have hlt : a.value < 2 ^ 64 := a.fits.trans_le (by cases a.width <;> decide)
      refine tokenRound_or (readHead_or (by decide) a.fits h) ?_
      rcases decRemaining_or (s := s.advance (head 1 a.width a.value).length) with hdec | hfails
      · refine .inl ⟨(s.advance (head 1 a.width a.value).length).charge, ?_⟩
        rw [tokenOf, bind_of_ok hdec, HeadArg.getValue, pure_bind, Numeral.value]
        by_cases hle : a.value ≤ 2 ^ 63 - 1
        · rw [if_pos hle, if_pos hle, minusOneSub_of_le (by omega) (by omega)]
          rfl
        · rw [if_neg hle, if_neg hle, minusOneSub_of_le (by omega) (by omega)]
          rfl
      · exact .inr (hfails.bind _)
  | bignum negative tag payload short =>
      have htag : ∀ n, n < 24 → n < tag.bound :=
        fun n hn => hn.trans_le (by cases tag <;> decide)
      cases negative with
      | false =>
          refine tokenRound_or (readHead_or (by decide) (htag 2 (by decide)) h.left) ?_
          rw [tokenOf, HeadArg.getValue, pure_bind, if_pos rfl]
          rcases readBignum_or false short h.right with hbig | hfails
          · rcases decRemaining_or (s := (s.advance (head 6 tag 2).length).advance
              (payload.encode 2).length) with hdec | hfails
            · exact .inl ⟨_, (bind_of_ok hbig).trans (bind_of_ok hdec)⟩
            · exact .inr (Fails.of_bind hbig (hfails.bind _))
          · exact .inr (hfails.bind _)
      | true =>
          refine tokenRound_or (readHead_or (by decide) (htag 3 (by decide)) h.left) ?_
          rw [tokenOf, HeadArg.getValue, pure_bind, if_neg (by decide), if_pos rfl]
          rcases readBignum_or true short h.right with hbig | hfails
          · rcases decRemaining_or (s := (s.advance (head 6 tag 3).length).advance
              (payload.encode 2).length) with hdec | hfails
            · exact .inl ⟨_, (bind_of_ok hbig).trans (bind_of_ok hdec)⟩
            · exact .inr (Fails.of_bind hbig (hfails.bind _))
          · exact .inr (hfails.bind _)
  | half bits fits => cases hint
  | single bits fits => cases hint
  | double bits fits => cases hint

lemma number_of_readToken {n : Number} (hpending : s.lookahead = none)
    (h : (∃ t, readToken s = (.ok (.number n), t)) ∨ Fails readToken s) :
    (∃ t, CborDecoder.number s = (.ok n, t)) ∨ Fails CborDecoder.number s := by
  have htake := takeToken_none s hpending
  rcases h with ⟨t, h⟩ | ⟨e, t, h⟩
  · exact .inl ⟨t, (bind_of_ok (htake.trans h)).trans rfl⟩
  · exact .inr ⟨e, t, bind_of_err (htake.trans h)⟩

end CborDecoder

/-- The number that is read is the encoded integer, unless it has wrapped around. -/
lemma integerOf_value {value : Numeral} {z : ℤ} (hint : value.integer = some z) :
    integerOf value.value = some z ↔ value.Narrow := by
  cases value with
  | unsigned a => exact iff_of_true hint trivial
  | negative a =>
      refine iff_of_true ?_ trivial
      rw [← hint, Numeral.value]
      split <;> rfl
  | bignum negative tag payload short =>
      cases negative with
      | false => exact iff_of_true hint trivial
      | true =>
          rw [← hint]
          change some (-1 - asI128 (beNat payload.bytes)) = some (-1 - (beNat payload.bytes : ℤ)) ↔
            beNat payload.bytes < 2 ^ 127
          rw [Option.some.injEq, asI128]
          split <;> omega
  | half bits fits => cases hint
  | single bits fits => cases hint
  | double bits fits => cases hint

lemma length_head_le (major : ℕ) (width : Width) (n : ℕ) : (head major width n).length ≤ 9 := by
  cases width <;> simp [head]

lemma length_encode_le {value : Numeral} {z : ℤ} (hint : value.integer = some z) :
    value.encode.length ≤ 34 := by
  cases value with
  | unsigned a => exact (length_head_le 0 a.width a.value).trans (by decide)
  | negative a => exact (length_head_le 1 a.width a.value).trans (by decide)
  | bignum negative tag payload short =>
      have hpayload := length_head_le 2 payload.width payload.bytes.length
      cases negative with
      | false =>
          have htag := length_head_le 6 tag 2
          rw [Numeral.encode, Chunk.encode, List.length_append, List.length_append]
          omega
      | true =>
          have htag := length_head_le 6 tag 3
          rw [Numeral.encode, Chunk.encode, List.length_append, List.length_append]
          omega
  | half bits fits => cases hint
  | single bits fits => cases hint
  | double bits fits => cases hint

/-- Wherever an integer stands, `number` returns that integer or fails, unless it is a negative
bignum with a magnitude of `2 ^ 127` or more. -/
theorem number_exact_iff (value : Numeral) (z : ℤ) (hint : value.integer = some z) :
    (∀ s : CborDecoder, s.lookahead = none → Here s value.encode →
      (∃ n t, CborDecoder.number s = (.ok n, t) ∧ integerOf n = some z) ∨
        ∃ e t, CborDecoder.number s = (.err e, t)) ↔ value.Narrow := by
  constructor
  · intro h
    have hlen := length_encode_le hint
    obtain ⟨s, hs⟩ : ∃ s, s = CborDecoder.new ⟨value.encode, by rw [u64Max]; omega⟩ Config.legacy :=
      ⟨_, rfl⟩
    have hpending : s.lookahead = none := by rw [hs]; rfl
    have hhere : Here s value.encode := by
      rw [hs]
      exact ⟨List.prefix_rfl, (Nat.zero_add _).le⟩
    have hroom : HasRoom s := by
      intro kind hkind
      rw [hs] at hkind
      cases hkind
    have hnext : Next s value.encode := hhere.next fun l hl => by
      rw [hs] at hl
      cases hl
    obtain ⟨t, ht⟩ : ∃ t, CborDecoder.number s = (.ok value.value, t) :=
      ⟨_, (bind_of_ok ((takeToken_none s hpending).trans (readToken_number hnext hroom))).trans rfl⟩
    rw [← integerOf_value hint]
    rcases h s hpending hhere with ⟨n, u, hn, hz⟩ | ⟨e, u, he⟩
    · rw [ht] at hn
      cases hn
      exact hz
    · rw [ht] at he
      cases he
  · intro hnarrow s hpending hhere
    rcases number_of_readToken hpending (readToken_integer hint hhere) with ⟨t, ht⟩ | hfails
    · exact .inl ⟨_, t, ht, (integerOf_value hint).mpr hnarrow⟩
    · exact .inr hfails

theorem number_exact_ten :
    (∀ s : CborDecoder, s.lookahead = none → Here s [0x0a] →
      (∃ n t, CborDecoder.number s = (.ok n, t) ∧ integerOf n = some 10) ∨
        ∃ e t, CborDecoder.number s = (.err e, t)) ↔ True :=
  number_exact_iff (.unsigned ⟨10, .immediate, by decide⟩) 10 rfl

/-- The negative bignum `-1 - 2 ^ 127`. -/
def wide : Input where
  bytes := [0xc3, 0x50, 0x80] ++ List.replicate 15 0
  length_le := by decide

theorem number_wide :
    (Numeral.bignum true .immediate ⟨0x80 :: List.replicate 15 0, .immediate, by decide⟩
        (by decide)).encode = wide.bytes ∧
      (Numeral.bignum true .immediate ⟨0x80 :: List.replicate 15 0, .immediate, by decide⟩
        (by decide)).integer = some (-1 - 2 ^ 127) ∧
      (CborDecoder.number (CborDecoder.new wide .standard)).1 = .ok (.i128 (2 ^ 127 - 1)) := by
  decide +kernel

end RustBinary.Cbor
