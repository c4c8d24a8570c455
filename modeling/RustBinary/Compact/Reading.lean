import RustBinary.Compact.Decoder
import RustBinary.Compact.Wire

/-!
# Reading primitive values

What the readers of the cursor accept, as spellings: a primitive type is read exactly from the wire
of a value, and the fast paths of vectors gather what the elements spell one by one.
-/

namespace RustBinary.Compact

open Lib Lib.Act CompactCursor

instance : Tape CompactCursor UInt8 where
  Here s bs := Window s.input.elems s.limitEnd s.position bs
  advance s n := { s with position := s.position + n }
  advance_zero _ := rfl
  advance_advance _ _ _ := by simp only [Nat.add_assoc]
  here_append _ _ _ := window_append

/-- Every cursor. -/
def Anywhere (_ : CompactCursor) : Prop := True

lemma steady_anywhere : Steady Anywhere := fun _ _ _ => trivial

section Bytes

variable {s t : CompactCursor} {bs : List UInt8}

/-- What lies at the cursor is part of a slice. -/
lemma length_le_of_here (h : Tape.Here s bs) : bs.length ≤ isizeMax := by
  have hend := (slice_eq_some.mp h.1).2.1
  have hinput := s.input.length_le
  omega

lemma here_singleton {byte : UInt8} :
    Tape.Here s [byte] ↔ s.input.elems[s.position]? = some byte ∧
      ∀ l, s.limitEnd = some l → s.position + 1 ≤ l := by
  change slice _ _ _ = _ ∧ _ ↔ _
  rw [List.length_singleton, slice_one, Option.map_eq_some_iff]
  simp

lemma here_cons {byte : UInt8} :
    Tape.Here s (byte :: bs) ↔ s.input.elems[s.position]? = some byte ∧
      (∀ l, s.limitEnd = some l → s.position + 1 ≤ l) ∧ Tape.Here (Tape.advance s 1) bs := by
  rw [← List.singleton_append, Tape.here_append, here_singleton, List.length_singleton, and_assoc]

lemma enforceLimit_eq_ok {stop : ℕ} {u : Unit} :
    enforceLimit stop s = (.ok u, t) ↔ (∀ l, s.limitEnd = some l → stop ≤ l) ∧ t = s := by
  rw [enforceLimit, get_bind_run, atMost_eq_ok]

lemma spells_take (len : ℕ) :
    Spells Anywhere (take len) fun bytes bs =>
      bytes = bs ∧ bs.length = len ∧ len ≤ isizeMax := by
  intro s _ _ bytes t
  rw [take]
  simp only [bind_eq_ok, get_run, Prod.mk.injEq, Outcome.ok.injEq, okOr_eq_ok, enforceLimit_eq_ok,
    setPosition, modify_run, pure_run]
  constructor
  · rintro ⟨_, s, ⟨rfl, rfl⟩, stop, _, ⟨hstop, rfl⟩, _, _, ⟨hlimit, rfl⟩, read, _, ⟨hslice, rfl⟩,
      _, _, ⟨-, rfl⟩, rfl, rfl⟩
    rw [checkedAdd, Option.ite_none_right_eq_some, Option.some.injEq] at hstop
    obtain ⟨-, rfl⟩ := hstop
    have hlen : read.length = len := by
      rw [slice_length hslice]
      omega
    subst hlen
    have hle : read.length ≤ isizeMax :=
      length_le_of_here (show Tape.Here _ read from ⟨hslice, hlimit⟩)
    exact ⟨read, ⟨rfl, rfl, hle⟩, ⟨hslice, hlimit⟩, rfl⟩
  · rintro ⟨bs, ⟨rfl, rfl, -⟩, ⟨hslice, hlimit⟩, rfl⟩
    have hmax : s.position + bytes.length ≤ u64Max := by
      have h := (slice_eq_some.mp hslice).2.1
      have hinput := s.input.length_le
      rw [isizeMax] at hinput
      rw [u64Max]
      omega
    exact ⟨_, _, ⟨rfl, rfl⟩, _, _, ⟨if_pos hmax, rfl⟩, (), _, ⟨hlimit, rfl⟩, _, _, ⟨hslice, rfl⟩,
      (), _, ⟨trivial, rfl⟩, rfl, rfl⟩

lemma spells_byte : Spells Anywhere byte fun first bs => bs = [first] := by
  intro s _ _ first t
  rw [byte]
  simp only [bind_eq_ok, get_run, Prod.mk.injEq, Outcome.ok.injEq, okOr_eq_ok, advanceOne,
    enforceLimit_eq_ok, setPosition, modify_run, pure_run]
  constructor
  · rintro ⟨_, _, ⟨rfl, rfl⟩, _, _, ⟨hbyte, rfl⟩, _, _, ⟨_, _, ⟨hlimit, rfl⟩, -, rfl⟩, rfl, rfl⟩
    exact ⟨_, rfl, here_singleton.mpr ⟨hbyte, hlimit⟩, rfl⟩
  · rintro ⟨_, rfl, hhere, rfl⟩
    obtain ⟨hbyte, hlimit⟩ := here_singleton.mp hhere
    exact ⟨_, _, ⟨rfl, rfl⟩, _, _, ⟨hbyte, rfl⟩, (), _, ⟨(), _, ⟨hlimit, rfl⟩, trivial, rfl⟩, rfl,
      rfl⟩

lemma spells_throw {α : Type} (e : Error) :
    Spells Anywhere (throw e : Dec α) fun _ (_ : List UInt8) => False :=
  Spells.never fun s _ a t h => by simp at h

lemma spells_okOr {α : Type} (o : Option α) (e : Error) :
    Spells Anywhere (okOr o e : Dec α) fun a (bs : List UInt8) => o = some a ∧ bs = [] :=
  Spells.okOr o e

end Bytes

/-! ## Varints -/

/-- The payload behind a marker that announces `width` bytes. -/
lemma payloadOf_eq_ok {s cursor t : CompactCursor} {marker : UInt8} {width minimum stop : ℕ}
    {bytes : List UInt8} (hform : (marker, width, minimum) ∈ wideForms) :
    payloadOf cursor marker s = (.ok (bytes, stop), t) ↔
      stop = cursor.position + (width + 1) ∧ (∀ l, s.limitEnd = some l → stop ≤ l) ∧
        slice cursor.input.elems (cursor.position + 1) stop = some bytes ∧ t = s := by
  have hwidth : widthOf marker = some (width + 1) := by
    simp only [wideForms, List.mem_cons, Prod.mk.injEq, List.not_mem_nil, or_false] at hform
    rcases hform with ⟨rfl, rfl, -⟩ | ⟨rfl, rfl, -⟩ | ⟨rfl, rfl, -⟩ | ⟨rfl, rfl, -⟩ <;> rfl
  rw [payloadOf, hwidth]
  simp only [bind_eq_ok, okOr_eq_ok, Option.some.injEq, enforceLimit_eq_ok, pure_run, Prod.mk.injEq,
    Outcome.ok.injEq]
  constructor
  · rintro ⟨_, _, ⟨rfl, rfl⟩, _, _, ⟨hlimit, rfl⟩, _, _, ⟨hslice, rfl⟩, ⟨rfl, rfl⟩, rfl⟩
    exact ⟨rfl, hlimit, hslice, rfl⟩
  · rintro ⟨rfl, hlimit, hslice, rfl⟩
    exact ⟨_, _, ⟨rfl, rfl⟩, (), _, ⟨hlimit, rfl⟩, _, _, ⟨hslice, rfl⟩, ⟨rfl, rfl⟩, rfl⟩

/-- A marker and a payload, at a cursor. -/
lemma here_marked {s : CompactCursor} {marker : UInt8} {payload : List UInt8} :
    Tape.Here s (marker :: payload) ↔ s.input.elems[s.position]? = some marker ∧
      (∀ l, s.limitEnd = some l → s.position + (payload.length + 1) ≤ l) ∧
      slice s.input.elems (s.position + 1) (s.position + (payload.length + 1)) = some payload := by
  have hstop : s.position + 1 + payload.length = s.position + (payload.length + 1) := by omega
  rw [here_cons]
  constructor
  · rintro ⟨hmarker, -, hslice, hlimit⟩
    refine ⟨hmarker, fun l hl => ?_, ?_⟩
    · have := hlimit l hl
      simp only [Tape.advance] at this
      omega
    · rw [← hstop]
      exact hslice
  · rintro ⟨hmarker, hlimit, hslice⟩
    refine ⟨hmarker, fun l hl => ?_, ?_, fun l hl => ?_⟩
    · have := hlimit l hl
      omega
    · rw [← hstop] at hslice
      exact hslice
    · have := hlimit l hl
      simp only [Tape.advance]
      omega

/-- What `decode` has to do with a marked payload for a reader of the numbers in `P`. -/
structure Decodes (decode : UInt8 → List UInt8 → Outcome Error ℕ) (P : ℕ → Prop) : Prop where
  plain : ∀ n ≤ 250, P n
  wide : ∀ {marker : UInt8} {width minimum : ℕ} {payload : List UInt8} {n : ℕ},
    (marker, width, minimum) ∈ wideForms → payload.length = width →
      (decode marker payload = .ok n ↔ minimum ≤ leNat payload ∧ n = leNat payload ∧ P n)

lemma spells_readMarked {decode : UInt8 → List UInt8 → Outcome Error ℕ} {P : ℕ → Prop}
    (h : Decodes decode P) :
    Spells Anywhere (readMarked decode) fun n bs =>
      P n ∧ n < 2 ^ 128 ∧ bs = encodeVarintLe n := by
  intro s _ _ n t
  rw [readMarked, get_bind_run]
  simp only [bind_eq_ok, okOr_eq_ok]
  constructor
  · rintro ⟨marker, _, ⟨hmarker, rfl⟩, hread⟩
    rcases marker_cases marker with hle | ⟨width, minimum, hform⟩ | rfl
    · rw [if_pos hle, bind_eq_ok] at hread
      obtain ⟨_, u, hadvance, hpure⟩ := hread
      rw [advanceOne, bind_eq_ok] at hadvance
      obtain ⟨_, _, hlimit, hset⟩ := hadvance
      obtain ⟨hlimit, rfl⟩ := enforceLimit_eq_ok.mp hlimit
      cases hset
      cases hpure
      refine ⟨[marker], ⟨h.plain _ hle, by omega, ?_⟩, here_singleton.mpr ⟨hmarker, hlimit⟩, rfl⟩
      rw [encodeVarintLe_eq, varintBy_of_le hle, UInt8.ofNat_toNat]
    · rw [if_neg (Nat.not_le.mpr (lt_of_mem_wideForms hform)), bind_eq_ok] at hread
      obtain ⟨⟨payload, stop⟩, u, hpayload, hread⟩ := hread
      obtain ⟨rfl, hlimit, hslice, rfl⟩ := (payloadOf_eq_ok hform).mp hpayload
      have hlen : payload.length = width := by
        rw [slice_length hslice]
        omega
      simp only [setPosition, modify_bind_run, call_run, Prod.mk.injEq] at hread
      obtain ⟨hdecode, rfl⟩ := hread
      obtain ⟨hmin, rfl, hP⟩ := (h.wide hform hlen).mp hdecode
      have hlt : leNat payload < 256 ^ width := hlen ▸ leNat_lt payload
      obtain ⟨hbound, hspell⟩ := varintBy_of_wide leBytes hform hmin hlt
      have hbytes : leBytes width (leNat payload) = payload := hlen ▸ leBytes_leNat payload
      rw [hbytes] at hspell
      refine ⟨marker :: payload, ⟨hP, hbound, by rw [encodeVarintLe_eq, hspell]⟩, ?_, ?_⟩
      · exact here_marked.mpr ⟨hmarker, by rwa [hlen], by rwa [hlen]⟩
      · rw [List.length_cons, hlen]
        rfl
    · rw [if_neg (by decide), bind_run] at hread
      cases hread
  · rintro ⟨bs, ⟨hP, hbound, rfl⟩, hhere, rfl⟩
    rw [encodeVarintLe_eq] at hhere ⊢
    rcases varintBy_cases leBytes hbound with
      ⟨hle, hspell⟩ | ⟨marker, width, minimum, hform, hmin, hlt, hspell⟩
    · have hnat : (UInt8.ofNat n).toNat = n := by
        rw [UInt8.toNat_ofNat']
        omega
      rw [hspell] at hhere ⊢
      obtain ⟨hmarker, hlimit⟩ := here_singleton.mp hhere
      refine ⟨_, s, ⟨hmarker, rfl⟩, ?_⟩
      rw [if_pos (by rwa [hnat]), advanceOne, bind_assoc,
        bind_of_ok ((enforceLimit_eq_ok (u := ())).mpr ⟨hlimit, rfl⟩), hnat]
      rfl
    · have hlen : (leBytes width n).length = width := length_leBytes width n
      rw [hspell] at hhere ⊢
      obtain ⟨hmarker, hlimit, hslice⟩ := here_marked.mp hhere
      rw [hlen] at hlimit hslice
      have hdecode : decode marker (leBytes width n) = .ok n := by
        rw [h.wide hform hlen, leNat_leBytes hlt]
        exact ⟨hmin, rfl, hP⟩
      refine ⟨marker, s, ⟨hmarker, rfl⟩, ?_⟩
      rw [if_neg (Nat.not_le.mpr (lt_of_mem_wideForms hform)),
        bind_of_ok ((payloadOf_eq_ok hform).mpr ⟨rfl, hlimit, hslice, rfl⟩)]
      simp only [setPosition, modify_bind_run, call_run, hdecode, List.length_cons, hlen]
      rfl

lemma okOr_atLeast_eq_ok {minimum value n : ℕ} {e : Error} :
    Outcome.okOr (atLeast minimum value) e = .ok n ↔ minimum ≤ value ∧ n = value := by
  rw [Outcome.okOr_eq_ok, atLeast]
  split
  · next h => exact iff_of_false (by rintro ⟨⟩) fun h' => absurd h'.1 (Nat.not_le.mpr h)
  · next h => simp [Nat.le_of_not_lt h, eq_comm]

lemma decodes_u128 : Decodes decodeU128 fun _ => True where
  plain _ _ := trivial
  wide hform hlen := by
    rw [decodeU128, decodeVarintLe_wide hform hlen, okOr_atLeast_eq_ok, and_true]

/-- Only the widest form holds more than a `u64`. -/
lemma decodes_u64 : Decodes decodeU64 fun n => n ≤ u64Max where
  plain n hn := hn.trans (by decide)
  wide {marker width minimum payload n} hform hlen := by
    have hlt : leNat payload < 256 ^ width := hlen ▸ leNat_lt payload
    by_cases hwide : marker = markerU128
    · rw [decodeU64, if_pos hwide, decodeVarintLe_wide hform hlen, Outcome.bind_eq_ok]
      simp only [okOr_atLeast_eq_ok]
      constructor
      · rintro ⟨value, ⟨hmin, rfl⟩, hvalue⟩
        split_ifs at hvalue with hle
        cases hvalue
        exact ⟨hmin, rfl, hle⟩
      · rintro ⟨hmin, rfl, hle⟩
        exact ⟨_, ⟨hmin, rfl⟩, if_pos hle⟩
    · have hword : decodeVarintLeU64 marker payload = decodeVarintLe marker payload ∧ width ≤ 8 := by
        rw [decodeVarintLeU64, decodeVarintLe]
        simp only [wideForms, List.mem_cons, Prod.mk.injEq, List.not_mem_nil, or_false] at hform
        rcases hform with ⟨rfl, rfl, -⟩ | ⟨rfl, rfl, -⟩ | ⟨rfl, rfl, -⟩ | ⟨rfl, rfl, -⟩
        · exact ⟨rfl, by decide⟩
        · exact ⟨rfl, by decide⟩
        · exact ⟨rfl, by decide⟩
        · exact absurd rfl hwide
      have hmax : leNat payload ≤ u64Max := by
        have hpow : 256 ^ width ≤ 256 ^ 8 := Nat.pow_le_pow_right (by decide) hword.2
        rw [u64Max]
        omega
      rw [decodeU64, if_neg hwide, hword.1, decodeVarintLe_wide hform hlen, okOr_atLeast_eq_ok]
      constructor
      · rintro ⟨hmin, rfl⟩
        exact ⟨hmin, rfl, hmax⟩
      · rintro ⟨hmin, rfl, -⟩
        exact ⟨hmin, rfl⟩

lemma spells_readVarint :
    Spells Anywhere readVarint fun n bs => n ≤ u64Max ∧ bs = encodeVarintLe n := by
  refine (spells_readMarked decodes_u64).congr fun n bs => ?_
  rw [u64Max]
  constructor
  · rintro ⟨hle, -, rfl⟩
    exact ⟨hle, rfl⟩
  · rintro ⟨hle, rfl⟩
    exact ⟨hle, by omega, rfl⟩

lemma spells_readVarintU128 :
    Spells Anywhere readVarintU128 fun n bs => n < 2 ^ 128 ∧ bs = encodeVarintLe n :=
  (spells_readMarked decodes_u128).congr fun _ _ => by rw [true_and]

/-- A reader that goes on only with some of the numbers. -/
lemma Spells.filter {α β : Type} {m : Dec α} {L : α → List UInt8 → Prop} {p : α → Prop}
    [DecidablePred p] {f : α → β} {e : Error} (h : Spells Anywhere m L) :
    Spells Anywhere (do let a ← m; if p a then pure (f a) else throw e) fun b bs =>
      ∃ a, L a bs ∧ p a ∧ b = f a := by
  refine (h.bind steady_anywhere fun a =>
    (Spells.pure (f a)).ite (spells_throw e)).congr fun b bs => ?_
  constructor
  · rintro ⟨a, xs, ys, hL, hM, rfl⟩
    split_ifs at hM with hp
    obtain ⟨rfl, rfl⟩ := hM
    exact ⟨a, (List.append_nil xs).symm ▸ hL, hp, rfl⟩
  · rintro ⟨a, hL, hp, rfl⟩
    exact ⟨a, bs, [], hL, by rw [if_pos hp]; exact ⟨rfl, rfl⟩, (List.append_nil bs).symm⟩

lemma spells_readLength :
    Spells Anywhere readLength fun n bs => n ≤ u64Max ∧ bs = encodeVarintLe n := by
  refine (Spells.filter (f := fun n => n) spells_readVarint).congr fun n bs => ?_
  constructor
  · rintro ⟨n, h, -, rfl⟩
    exact h
  · intro h
    exact ⟨n, h, h.1, rfl⟩

lemma spells_readBool : Spells Anywhere readBool fun b bs => bs = [boolByte b] := by
  refine (spells_byte.bind steady_anywhere fun byte => (Spells.pure false).ite
    ((Spells.pure true).ite (spells_throw _))).congr fun b bs => ?_
  constructor
  · rintro ⟨byte, xs, ys, rfl, hb, rfl⟩
    split_ifs at hb with h₀ h₁
    · obtain ⟨rfl, rfl⟩ := hb
      rw [h₀]
      rfl
    · obtain ⟨rfl, rfl⟩ := hb
      rw [h₁]
      rfl
  · rintro rfl
    refine ⟨boolByte b, _, [], rfl, ?_, (List.append_nil _).symm⟩
    cases b
    · exact ⟨rfl, rfl⟩
    · exact ⟨rfl, rfl⟩

/-- A signed word within bounds that lie in an `i128`. -/
lemma spells_zigzag {low high : ℤ} {target : String} (hlow : -2 ^ 127 ≤ low)
    (hhigh : high ≤ 2 ^ 127) :
    Spells Anywhere (do let n ← readVarintU128; inRange low high target (zigzagDecode n))
      fun value bs => low ≤ value ∧ value < high ∧ bs = encodeVarintLe (zigzagEncode value) := by
  refine (Spells.filter (f := zigzagDecode) (p := fun n => low ≤ zigzagDecode n ∧
    zigzagDecode n < high) spells_readVarintU128).congr fun value bs => ?_
  constructor
  · rintro ⟨n, ⟨hn, rfl⟩, ⟨hle, hlt⟩, rfl⟩
    rw [(zigzagEncode_zigzagDecode hn).2.2]
    exact ⟨hle, hlt, rfl⟩
  · rintro ⟨hle, hlt, rfl⟩
    obtain ⟨hword, hdecode⟩ := zigzagDecode_zigzagEncode (z := value) (by omega) (by omega)
    exact ⟨_, ⟨hword, rfl⟩, by rw [hdecode]; exact ⟨hle, hlt⟩, hdecode.symm⟩

/-! ## Primitive types -/

lemma charFromU32_eq_some {n : ℕ} {c : Char} : charFromU32 n = some c ↔ n = c.toNat := by
  rw [charFromU32]
  constructor
  · intro h
    split_ifs at h with hvalid
    cases h
    rw [Char.ofNat, dif_pos hvalid]
    rfl
  · rintro rfl
    have hvalid : c.toNat.isValidChar := c.valid
    rw [if_pos hvalid, Char.ofNat_toNat]

lemma toNat_lt (c : Char) : c.toNat < 2 ^ 32 := c.val.toNat_lt

lemma ofNat_eq_iff {w n : ℕ} (h : n < 2 ^ w) {x : BitVec w} : BitVec.ofNat w n = x ↔ n = x.toNat := by
  rw [← BitVec.toNat_inj, BitVec.toNat_ofNat, Nat.mod_eq_of_lt h]

/-- A word is told by its value in two's complement. -/
lemma ofInt_eq_iff {w : ℕ} (hw : 0 < w) {z : ℤ} (hle : -2 ^ (w - 1) ≤ z) (hlt : z < 2 ^ (w - 1))
    {x : BitVec w} : BitVec.ofInt w z = x ↔ z = x.toInt := by
  have hz : (BitVec.ofInt w z).toInt = z := by
    have hpow : ((2 ^ w : ℕ) : ℤ) = 2 * 2 ^ (w - 1) := by
      push_cast
      rw [mul_comm, ← pow_succ, Nat.sub_add_cancel hw]
    rw [BitVec.toInt_ofInt]
    exact Int.bmod_eq_of_le (by omega) (by omega)
  rw [← BitVec.toInt_inj, hz]

/-- Nothing is read behind the first reader. -/
lemma Spells.bind_pure {α β : Type} {m : Dec α} {L : α → List UInt8 → Prop} (h : Spells Anywhere m L)
    (f : α → β) :
    Spells Anywhere (do let a ← m; pure (f a)) fun b bs => ∃ a, L a bs ∧ b = f a := by
  rw [← map_eq_pure_bind]
  exact h.map f

lemma spells_inRange (low high value : ℤ) (target : String) :
    Spells Anywhere (inRange low high target value) fun z (bs : List UInt8) =>
      (low ≤ value ∧ value < high) ∧ z = value ∧ bs = [] := by
  refine ((Spells.pure value).ite (spells_throw _)).congr fun z bs => ?_
  by_cases h : low ≤ value ∧ value < high
  · simp only [if_pos h]
    exact (and_iff_right h).symm
  · simp only [if_neg h]
    exact iff_of_false id fun h' => h h'.1

lemma spells_readFloat (w : FloatWidth) :
    Spells Anywhere (readFloat w) fun value bs => bs = leBytes w.bytes value.toNat := by
  have hpow : 256 ^ w.bytes = 2 ^ w.bits := by
    rw [FloatWidth.bits, pow_mul]
    norm_num
  refine (Spells.bind_pure (spells_take w.bytes) _).congr fun value bs => ?_
  constructor
  · rintro ⟨bytes, ⟨rfl, hlen, -⟩, rfl⟩
    have hlt : leNat bytes < 2 ^ w.bits := by
      rw [← hpow, ← hlen]
      exact leNat_lt bytes
    rw [BitVec.toNat_ofNat, Nat.mod_eq_of_lt hlt, ← hlen, leBytes_leNat]
  · rintro rfl
    refine ⟨_, ⟨rfl, length_leBytes _ _, by cases w <;> decide⟩, ?_⟩
    rw [leNat_leBytes (hpow ▸ value.isLt), BitVec.ofNat_toNat, BitVec.setWidth_eq]

namespace Scalar

/-- A reader of numbers within the bounds of the words of `w` bits. -/
lemma spells_ofInt {w : ℕ} {m : Dec ℤ} (hw : 0 < w)
    (h : Spells Anywhere m fun z bs => -2 ^ (w - 1) ≤ z ∧ z < 2 ^ (w - 1) ∧
      bs = encodeVarintLe (zigzagEncode z)) :
    Spells Anywhere (do let z ← m; pure (BitVec.ofInt w z)) fun x bs =>
      bs = encodeVarintLe (zigzagEncode x.toInt) := by
  refine (Spells.bind_pure h _).congr fun x bs => ?_
  constructor
  · rintro ⟨z, ⟨hle, hlt, rfl⟩, hx⟩
    rw [(ofInt_eq_iff hw hle hlt).mp hx.symm]
  · rintro rfl
    have hle := BitVec.le_toInt x
    have hlt := BitVec.toInt_lt (x := x)
    exact ⟨x.toInt, ⟨hle, hlt, rfl⟩, ((ofInt_eq_iff hw hle hlt).mpr rfl).symm⟩

lemma spells_signed (w : VarWidth) :
    Spells Anywhere (do
      let value ← readZigzag
      inRange (-2 ^ (w.bits - 1)) (2 ^ (w.bits - 1)) w.signedName value) fun value bs =>
        -2 ^ (w.bits - 1) ≤ value ∧ value < 2 ^ (w.bits - 1) ∧
          bs = encodeVarintLe (zigzagEncode value) := by
  have hpow : (2 : ℤ) ^ (w.bits - 1) ≤ 2 ^ 63 := by
    cases w <;> decide
  have hzigzag : Spells Anywhere readZigzag fun value bs => -2 ^ 63 ≤ value ∧ value < 2 ^ 63 ∧
      bs = encodeVarintLe (zigzagEncode value) := spells_zigzag (by decide) (by decide)
  refine (hzigzag.bind steady_anywhere fun value => spells_inRange _ _ value _).congr
    fun value bs => ?_
  constructor
  · rintro ⟨_, xs, ys, ⟨-, -, rfl⟩, ⟨⟨hle, hlt⟩, rfl, rfl⟩, rfl⟩
    exact ⟨hle, hlt, List.append_nil _⟩
  · rintro ⟨hle, hlt, rfl⟩
    exact ⟨value, _, [], ⟨by omega, by omega, rfl⟩, ⟨⟨hle, hlt⟩, rfl, rfl⟩,
      (List.append_nil _).symm⟩

/-- A length, and as many bytes. -/
lemma spells_lengthTake :
    Spells Anywhere (do let len ← readLength; take len) fun bytes bs =>
      bytes.length ≤ isizeMax ∧ bs = encodeVarintLe bytes.length ++ bytes := by
  refine (spells_readLength.bind steady_anywhere spells_take).congr fun bytes bs => ?_
  constructor
  · rintro ⟨len, xs, ys, ⟨-, rfl⟩, ⟨rfl, rfl, hle⟩, rfl⟩
    exact ⟨hle, rfl⟩
  · rintro ⟨hle, rfl⟩
    exact ⟨bytes.length, _, bytes, ⟨hle.trans (by decide), rfl⟩, ⟨rfl, rfl, hle⟩, rfl⟩

/-- A primitive type is read exactly from the wire of a value. -/
lemma spells (s : Scalar) :
    Spells Anywhere s.decode fun value bs => s.Allocated value ∧ bs = s.wire value := by
  cases s with
  | unit => exact (Spells.pure ()).congr fun _ _ => ⟨fun h => ⟨trivial, h.2⟩, fun h => ⟨rfl, h.2⟩⟩
  | bool => exact spells_readBool.congr fun _ _ => ⟨fun h => ⟨trivial, h⟩, fun h => h.2⟩
  | u8 => exact spells_byte.congr fun _ _ => ⟨fun h => ⟨trivial, h⟩, fun h => h.2⟩
  | i8 =>
      refine (Spells.bind_pure spells_byte UInt8.toInt8).congr fun value bs => ?_
      constructor
      · rintro ⟨byte, rfl, rfl⟩
        exact ⟨trivial, rfl⟩
      · rintro ⟨-, rfl⟩
        exact ⟨Int8.toUInt8 value, rfl, rfl⟩
  | unsigned w =>
      have hbits : 2 ^ w.bits ≤ u64Max + 1 := by
        cases w <;> decide
      refine (Spells.filter (f := BitVec.ofNat w.bits) (p := fun n => n < 2 ^ w.bits)
        spells_readVarint).congr fun value bs => ?_
      constructor
      · rintro ⟨n, ⟨-, rfl⟩, hn, rfl⟩
        refine ⟨trivial, congrArg encodeVarintLe ?_⟩
        exact ((ofNat_eq_iff hn).mp rfl)
      · rintro ⟨-, rfl⟩
        have hlt : BitVec.toNat value < 2 ^ w.bits := BitVec.isLt value
        exact ⟨BitVec.toNat value, ⟨by omega, rfl⟩, hlt, ((ofNat_eq_iff hlt).mpr rfl).symm⟩
  | signed w =>
      have h := spells_ofInt (by cases w <;> decide) (spells_signed w)
      rw [bind_assoc] at h
      exact h.congr fun _ _ => ⟨fun h => ⟨trivial, h⟩, fun h => h.2⟩
  | u128 =>
      refine (Spells.bind_pure spells_readVarintU128 (BitVec.ofNat 128)).congr fun value bs => ?_
      constructor
      · rintro ⟨n, ⟨hn, rfl⟩, rfl⟩
        refine ⟨trivial, congrArg encodeVarintLe ?_⟩
        exact ((ofNat_eq_iff hn).mp rfl)
      · rintro ⟨-, rfl⟩
        have hlt : BitVec.toNat value < 2 ^ 128 := BitVec.isLt value
        exact ⟨BitVec.toNat value, ⟨hlt, rfl⟩, ((ofNat_eq_iff hlt).mpr rfl).symm⟩
  | i128 =>
      have hread : Spells Anywhere readZigzagI128 fun z bs => -2 ^ (128 - 1) ≤ z ∧
          z < 2 ^ (128 - 1) ∧ bs = encodeVarintLe (zigzagEncode z) := by
        refine (Spells.bind_pure spells_readVarintU128 zigzagDecode).congr fun z bs => ?_
        constructor
        · rintro ⟨n, ⟨hn, rfl⟩, rfl⟩
          obtain ⟨hle, hlt, hword⟩ := zigzagEncode_zigzagDecode hn
          exact ⟨hle, hlt, by rw [hword]⟩
        · rintro ⟨hle, hlt, rfl⟩
          obtain ⟨hword, hdecode⟩ := zigzagDecode_zigzagEncode hle hlt
          exact ⟨_, ⟨hword, rfl⟩, hdecode.symm⟩
      exact (spells_ofInt (by decide) hread).congr fun _ _ =>
        ⟨fun h => ⟨trivial, h⟩, fun h => h.2⟩
  | float w => exact (spells_readFloat w).congr fun _ _ => ⟨fun h => ⟨trivial, h⟩, fun h => h.2⟩
  | char =>
      refine (spells_readVarint.bind steady_anywhere fun n =>
        (spells_okOr (charFromU32 n) .invalidChar).ite (spells_throw _)).congr fun value bs => ?_
      constructor
      · rintro ⟨n, xs, ys, ⟨-, rfl⟩, hvalue, rfl⟩
        split_ifs at hvalue
        obtain ⟨hchar, rfl⟩ := hvalue
        obtain rfl := charFromU32_eq_some.mp hchar
        exact ⟨trivial, List.append_nil _⟩
      · rintro ⟨-, rfl⟩
        have hlt := toNat_lt value
        refine ⟨Char.toNat value, _, [], ⟨?_, rfl⟩, ?_, (List.append_nil _).symm⟩
        · rw [u64Max]
          omega
        · rw [if_pos hlt]
          exact ⟨charFromU32_eq_some.mpr rfl, rfl⟩
  | string =>
      have h := spells_lengthTake.bind steady_anywhere fun bytes =>
        spells_okOr (fromUtf8 bytes) .invalidUtf8
      rw [bind_assoc] at h
      refine h.congr fun value bs => ?_
      constructor
      · rintro ⟨bytes, xs, ys, ⟨hle, rfl⟩, ⟨htext, rfl⟩, rfl⟩
        obtain rfl := fromUtf8_eq_some.mp htext
        exact ⟨hle, List.append_nil _⟩
      · rintro ⟨hle, rfl⟩
        exact ⟨toUtf8 value, _, [], ⟨hle, rfl⟩, ⟨fromUtf8_toUtf8 value, rfl⟩,
          (List.append_nil _).symm⟩
  | bytes => exact spells_lengthTake

end Scalar

/-! ## Containers -/

namespace CompactCursor

/-- Inside one more collection. -/
def entered (s : CompactCursor) : CompactCursor := { s with depth := s.depth + 1 }

/-- Outside of the last collection. -/
def exited (s : CompactCursor) : CompactCursor := { s with depth := s.depth - 1 }

/-- A collection of `len` elements may be opened. -/
structure MayEnter (s : CompactCursor) (len : ℕ) : Prop where
  collection : ∀ l, s.collectionLimit = some l → len ≤ l
  depth_lt : s.depth < s.depthLimit

variable {s t : CompactCursor} {len : ℕ}

lemma enterContainer_cases (s : CompactCursor) (len : ℕ) :
    (∃ l, s.collectionLimit = some l ∧ l < len ∧ enterContainer len s = (.err (.collectionLimit l), s)) ∨
      (s.depthLimit ≤ s.depth ∧ enterContainer len s = (.err depthError, s)) ∨
      (s.MayEnter len ∧ enterContainer len s = (.ok (), s.entered)) := by
  rw [enterContainer, get_bind_run, bind_run]
  rcases atMost_cases s.collectionLimit len Error.collectionLimit with
    ⟨hle, h⟩ | ⟨l, hl, hlt, h⟩
  · rw [h, pure_run]
    by_cases hdepth : s.depthLimit ≤ s.depth
    · exact .inr (.inl ⟨hdepth, by rw [if_pos hdepth]; rfl⟩)
    · exact .inr (.inr ⟨⟨hle, Nat.lt_of_not_le hdepth⟩, by rw [if_neg hdepth]; rfl⟩)
  · exact .inl ⟨l, hl, hlt, by rw [h]; rfl⟩

lemma enterContainer_of (h : s.MayEnter len) : enterContainer len s = (.ok (), s.entered) := by
  rcases enterContainer_cases s len with ⟨l, hl, hlt, -⟩ | ⟨hle, -⟩ | ⟨-, henter⟩
  · exact absurd (h.collection l hl) (Nat.not_le.mpr hlt)
  · exact absurd h.depth_lt (Nat.not_lt.mpr hle)
  · exact henter

lemma enterContainer_eq_ok {u : Unit} :
    enterContainer len s = (.ok u, t) ↔ s.MayEnter len ∧ t = s.entered := by
  constructor
  · intro h
    rcases enterContainer_cases s len with ⟨l, hl, hlt, h'⟩ | ⟨hle, h'⟩ | ⟨henter, h'⟩ <;>
      rw [h'] at h <;> cases h
    exact ⟨henter, rfl⟩
  · rintro ⟨henter, rfl⟩
    exact enterContainer_of henter

lemma exitContainer_of (h : s.depth ≠ 0) : exitContainer s = (.ok (), s.exited) := by
  rw [exitContainer, get_bind_run, if_neg h]
  rfl

lemma exitContainer_eq_ok {u : Unit} :
    exitContainer s = (.ok u, t) ↔ s.depth ≠ 0 ∧ t = s.exited := by
  constructor
  · intro h
    by_cases hdepth : s.depth = 0
    · rw [exitContainer, get_bind_run, if_pos hdepth] at h
      cases h
    · rw [exitContainer_of hdepth] at h
      cases h
      exact ⟨hdepth, rfl⟩
  · rintro ⟨hdepth, rfl⟩
    exact exitContainer_of hdepth

end CompactCursor

/-- Reading inside a collection moves the cursor as it does outside. -/
lemma exited_advance (s : CompactCursor) (n : ℕ) :
    (Tape.advance s.entered n).exited = Tape.advance s n := rfl

lemma here_entered {s : CompactCursor} {bs : List UInt8} :
    Tape.Here s.entered bs ↔ Tape.Here s bs := Iff.rfl

lemma decodeContainer_eq_ok {α : Type} {elements : ℕ → Dec α} {s t : CompactCursor} {a : α} :
    decodeContainer elements s = (.ok a, t) ↔
      ∃ len u v, readLength s = (.ok len, u) ∧ u.MayEnter len ∧
        elements len u.entered = (.ok a, v) ∧ v.depth ≠ 0 ∧ t = v.exited := by
  simp only [decodeContainer, bind_eq_ok, leaving_eq_ok, enterContainer_eq_ok, exitContainer_eq_ok]
  constructor
  · rintro ⟨len, u, hlen, _, _, ⟨henter, rfl⟩, _, v, helements, hdepth, rfl⟩
    exact ⟨len, u, v, hlen, henter, helements, hdepth, rfl⟩
  · rintro ⟨len, u, v, hlen, henter, helements, hdepth, rfl⟩
    exact ⟨len, u, hlen, (), _, ⟨henter, rfl⟩, (), v, helements, hdepth, rfl⟩

end RustBinary.Compact
