import RustBinary.Native.Wire
import RustBinary.Native.Primitive

/-!
# Reading scalars

What each reader of the self-describing decoder accepts, as the spellings of the wire: reader by
reader, from the bytes up to the token.
-/

namespace RustBinary.Native

open Lib Lib.Act Decoder

instance : Tape Decoder UInt8 where
  Here s bs := Window s.input.bytes s.config.limit s.cursor bs
  advance s n := { s with cursor := s.cursor + n }
  advance_zero _ := rfl
  advance_advance _ _ _ := by simp only [Nat.add_assoc]
  here_append _ _ _ := window_append

/-- The decoders of the configuration `c`. -/
def Under (c : Config) (s : Decoder) : Prop := s.config = c

lemma steady_under (c : Config) : Steady (Under c) := fun _ _ h => h

lemma orFail_eq_ok {α : Type} {m : Act Decoder Error α} {s t : Decoder} {a : α} :
    orFail m s = (.ok a, t) ↔ m s = (.ok a, t) := by
  rw [orFail, onErr]
  rcases m s with ⟨_ | _ | _ | _, u⟩ <;> simp

lemma fail_ne_ok {α : Type} {e : Error} {s t : Decoder} {a : α} :
    (fail e : Dec α) s ≠ (.ok a, t) := by
  simp

section Bytes

variable {c : Config}

lemma spells_fail {α : Type} {e : Error} :
    Spells (Under c) (fail e : Dec α) fun _ (_ : List UInt8) => False :=
  Spells.never fun _ _ _ _ => fail_ne_ok

lemma spells_take (len : ℕ) :
    Spells (Under c) (orFail (take len)) fun bytes bs => bytes = bs ∧ bs.length = len := by
  intro s _ _ bytes t
  rw [orFail_eq_ok, take]
  simp only [bind_eq_ok, get_run, Prod.mk.injEq, Outcome.ok.injEq, okOr_eq_ok, atMost_eq_ok,
    modify_run, pure_run]
  constructor
  · rintro ⟨_, _, ⟨rfl, rfl⟩, stop, _, ⟨hstop, rfl⟩, _, _, ⟨hlimit, rfl⟩, read, _, ⟨hslice, rfl⟩,
      _, _, ⟨-, rfl⟩, rfl, rfl⟩
    rw [checkedAdd] at hstop
    split at hstop
    · obtain rfl := Option.some.inj hstop
      have hlen : read.length = len := by
        rw [slice_length hslice]
        omega
      refine ⟨read, ⟨rfl, hlen⟩, ⟨?_, ?_⟩, ?_⟩
      · rw [hlen]
        exact hslice
      · rw [hlen]
        exact hlimit
      · rw [hlen]
        rfl
    · simp at hstop
  · rintro ⟨bs, ⟨rfl, rfl⟩, ⟨hslice, hlimit⟩, rfl⟩
    have hmax : s.cursor + bytes.length ≤ u64Max :=
      (slice_eq_some.mp hslice).2.1.trans s.input.length_le
    exact ⟨_, _, ⟨rfl, rfl⟩, _, _, ⟨if_pos hmax, rfl⟩, (), _, ⟨hlimit, rfl⟩, _, _, ⟨hslice, rfl⟩,
      (), _, ⟨trivial, rfl⟩, rfl, rfl⟩

lemma spells_byte : Spells (Under c) byte fun first bs => bs = [first] := by
  refine ((spells_take 1).bind (M := fun bytes first bs => bytes.head? = some first ∧ bs = [])
    (steady_under c) fun bytes => ?_).congr fun first bs => ?_
  · cases bytes with
    | nil =>
        refine (Spells.never fun s _ a t => by simp).congr fun a bs => ?_
        simp
    | cons first rest =>
        refine (Spells.pure first).congr fun a bs => ?_
        simp [eq_comm]
  · constructor
    · rintro ⟨_, xs, _, ⟨rfl, hlen⟩, ⟨hhead, rfl⟩, rfl⟩
      obtain ⟨x, rfl⟩ := List.length_eq_one_iff.mp hlen
      simpa using hhead
    · rintro rfl
      exact ⟨[first], [first], [], ⟨rfl, rfl⟩, ⟨rfl, rfl⟩, rfl⟩

end Bytes

/-! ## Integers -/

variable [Target] {c : Config}

lemma spells_literal (width : ℕ) :
    Spells (Under c) (literal width) fun n bs => n < 256 ^ width ∧ bs = toBytes c width n := by
  refine Spells.get_bind (m := orFail (take width) >>= fun bytes => pure (fromBytes c bytes)) ?_ ?_
  · rintro s rfl
    rfl
  refine ((spells_take width).bind (steady_under c) fun bytes => Spells.pure _).congr
    fun n bs => ?_
  constructor
  · rintro ⟨bytes, _, _, ⟨rfl, rfl⟩, ⟨rfl, rfl⟩, rfl⟩
    rw [List.append_nil]
    exact ⟨fromBytes_lt c bytes, (toBytes_fromBytes c bytes).symm⟩
  · rintro ⟨hn, rfl⟩
    exact ⟨_, _, [], ⟨rfl, length_toBytes c width n⟩, ⟨(fromBytes_toBytes hn).symm, rfl⟩, by simp⟩

lemma spells_canonical (width minimum : ℕ) :
    Spells (Under c) (canonical width minimum) fun n bs =>
      minimum ≤ n ∧ n < 256 ^ width ∧ bs = toBytes c width n := by
  have hcheck : ∀ value, Spells (Under c)
      (if value < minimum then fail .nonCanonicalVarint else (pure value : Dec ℕ)) fun n bs =>
        if value < minimum then False else n = value ∧ bs = [] :=
    fun value => spells_fail.ite (Spells.pure value)
  refine ((spells_literal width).bind (steady_under c) hcheck).congr fun n bs => ?_
  constructor
  · rintro ⟨value, xs, ys, ⟨hlt, rfl⟩, hvalue, rfl⟩
    split at hvalue
    · exact hvalue.elim
    · next hmin =>
        obtain ⟨rfl, rfl⟩ := hvalue
        exact ⟨Nat.le_of_not_lt hmin, hlt, List.append_nil _⟩
  · rintro ⟨hmin, hlt, rfl⟩
    refine ⟨n, _, [], ⟨hlt, rfl⟩, ?_, (List.append_nil _).symm⟩
    rw [if_neg (Nat.not_lt.mpr hmin)]
    exact ⟨rfl, rfl⟩

omit [Target] in
/-- The width of the payload, as the little-endian path finds it. -/
lemma payloadLen_wide {marker : UInt8} {width minimum : ℕ}
    (h : (marker, width, minimum) ∈ wideForms) :
    (if marker = markerU16 then pure 2
      else if marker = markerU32 then pure 4
      else if marker = markerU64 then pure 8
      else if marker = markerU128 then pure 16
      else fail (.invalidVarintMarker marker) : Dec ℕ) = pure width := by
  simp only [wideForms, List.mem_cons, Prod.mk.injEq, List.not_mem_nil, or_false] at h
  rcases h with ⟨rfl, rfl, -⟩ | ⟨rfl, rfl, -⟩ | ⟨rfl, rfl, -⟩ | ⟨rfl, rfl, -⟩ <;> rfl

/-- The little-endian payload of a marker. -/
lemma spells_littlePayload {marker : UInt8} {width minimum : ℕ} (hlittle : c.endian.isLittle = true)
    (h : (marker, width, minimum) ∈ wideForms) :
    Spells (Under c)
      (do
        let bytes ← orFail (take width)
        match decodeVarintLe marker bytes with
        | some value => (pure value : Dec ℕ)
        | none => fail .nonCanonicalVarint)
      fun n bs => minimum ≤ n ∧ n < 256 ^ width ∧ bs = toBytes c width n := by
  have hmatch : ∀ bytes : List UInt8, Spells (Under c)
      (match decodeVarintLe marker bytes with
        | some value => (pure value : Dec ℕ)
        | none => fail .nonCanonicalVarint)
      fun n bs => decodeVarintLe marker bytes = some n ∧ bs = [] := by
    intro bytes
    cases decodeVarintLe marker bytes with
    | none => exact spells_fail.congr fun n bs => by simp
    | some value => exact (Spells.pure value).congr fun n bs => by simp [eq_comm]
  refine ((spells_take width).bind (steady_under c) hmatch).congr fun n bs => ?_
  have hbytes : ∀ k m : ℕ, toBytes c k m = leBytes k m := fun _ _ => if_pos hlittle
  constructor
  · rintro ⟨bytes, _, _, ⟨rfl, hlen⟩, ⟨hdecode, rfl⟩, rfl⟩
    rw [decodeVarintLe_wide h hlen, atLeast] at hdecode
    split at hdecode
    · simp at hdecode
    · next hmin =>
        obtain rfl := Option.some.inj hdecode
        refine ⟨Nat.le_of_not_lt hmin, hlen ▸ leNat_lt bytes, ?_⟩
        rw [hbytes, List.append_nil, ← hlen, leBytes_leNat]
  · rintro ⟨hmin, hlt, rfl⟩
    refine ⟨_, _, [], ⟨rfl, length_toBytes c width n⟩, ⟨?_, rfl⟩, (List.append_nil _).symm⟩
    rw [decodeVarintLe_wide h (length_toBytes c width n), hbytes, leNat_leBytes hlt, atLeast,
      if_neg (Nat.not_lt.mpr hmin)]

lemma spells_varint :
    Spells (Under c) varint fun n bs => n < 2 ^ 128 ∧ bs = spellVarint c n := by
  refine spells_varintBy (steady_under c) spells_byte ?_ ?_ ?_
  · intro marker hle
    refine Spells.get_bind (m := pure marker.toNat) (fun s _ => ?_) (Spells.pure _)
    rw [if_pos hle, if_pos hle, ite_self]
  · intro marker width minimum hform
    have hgt := Nat.not_le.mpr (lt_of_mem_wideForms hform)
    refine Spells.get_bind (fun s hs => by rw [show s.config = c from hs]) ?_
    rw [if_neg hgt, if_neg hgt]
    split
    · next hlittle =>
        rw [payloadLen_wide hform, pure_bind]
        exact spells_littlePayload hlittle hform
    · simp only [wideForms, List.mem_cons, Prod.mk.injEq, List.not_mem_nil, or_false] at hform
      rcases hform with ⟨rfl, rfl, rfl⟩ | ⟨rfl, rfl, rfl⟩ | ⟨rfl, rfl, rfl⟩ | ⟨rfl, rfl, rfl⟩ <;>
        exact spells_canonical _ _
  · refine Spells.never fun s _ a t => ?_
    rw [get_bind_run]
    split <;> exact fail_ne_ok

lemma widen_zero {source : List UInt8} : widen c 0 source = fromBytes c source := by
  rw [widen, fromBytes]
  split
  · rw [leNat_append, leNat_replicate_zero, Nat.mul_zero, Nat.add_zero]
  · rw [beNat, List.reverse_append, List.reverse_replicate, leNat_append, leNat_replicate_zero,
      Nat.mul_zero, Nat.add_zero, beNat]

/-- The payload of an integer, read with `whenVariable` or with `whenFixed`. -/
lemma spells_word (width : ℕ) {α : Type} (value : ℕ → α) (whenVariable : Dec α)
    (whenFixed : List UInt8 → α)
    (hvariable : c.integers = .variable ∧ 1 < width →
      Spells (Under c) whenVariable fun a bs =>
        ∃ word, word < 2 ^ 128 ∧ a = value word ∧ bs = spellVarint c word)
    (hfixed : ¬ (c.integers = .variable ∧ 1 < width) →
      ∀ word, word < 256 ^ width → whenFixed (toBytes c width word) = value word) :
    Spells (Under c)
      (if c.integers = .variable ∧ 1 < width then whenVariable
        else do
          let source ← orFail (take width)
          pure (whenFixed source))
      fun a bs => ∃ word, IsWord c width word ∧ a = value word ∧ bs = spellInt c width word := by
  by_cases h : c.integers = .variable ∧ 1 < width
  · simp only [IsWord, spellInt, if_pos h]
    exact hvariable h
  · simp only [IsWord, spellInt, if_neg h]
    refine ((spells_take width).bind (steady_under c) fun source => Spells.pure _).congr
      fun a bs => ?_
    constructor
    · rintro ⟨source, _, _, ⟨rfl, hlen⟩, ⟨rfl, rfl⟩, rfl⟩
      subst hlen
      refine ⟨fromBytes c source, fromBytes_lt c source, ?_, ?_⟩
      · rw [← hfixed h _ (fromBytes_lt c source), toBytes_fromBytes]
      · rw [toBytes_fromBytes, List.append_nil]
    · rintro ⟨word, hword, rfl, rfl⟩
      exact ⟨_, _, [], ⟨rfl, length_toBytes c width word⟩, ⟨(hfixed h word hword).symm, rfl⟩,
        (List.append_nil _).symm⟩

lemma spells_unsigned (width targetMax : ℕ) :
    Spells (Under c) (unsigned width targetMax) fun n bs =>
      n ≤ targetMax ∧ IsWord c width n ∧ bs = spellInt c width n := by
  refine Spells.get_bind (fun s hs => by rw [show s.config = c from hs]) ?_
  have hword := spells_word (c := c) width (fun n => n) varint (widen c 0)
    (fun _ => spells_varint.congr fun n bs => by simp)
    (fun _ word hlt => by rw [widen_zero, fromBytes_toBytes hlt])
  refine (hword.bind (steady_under c) fun value =>
    spells_fail.ite (Spells.pure value)).congr fun n bs => ?_
  constructor
  · rintro ⟨value, xs, ys, ⟨word, hfits, rfl, rfl⟩, hvalue, rfl⟩
    split at hvalue
    · exact hvalue.elim
    · next hmax =>
        obtain ⟨rfl, rfl⟩ := hvalue
        exact ⟨Nat.le_of_not_lt hmax, hfits, List.append_nil _⟩
  · rintro ⟨hmax, hfits, rfl⟩
    refine ⟨n, _, [], ⟨n, hfits, rfl, rfl⟩, ?_, (List.append_nil _).symm⟩
    rw [if_neg (Nat.not_lt.mpr hmax)]
    exact ⟨rfl, rfl⟩

lemma spells_signed (width : ℕ) (min max : ℤ) :
    Spells (Under c) (signed width min max) fun z bs => ∃ word, IsWord c width word ∧
      z = signedWord c width word ∧ min ≤ z ∧ z ≤ max ∧ bs = spellInt c width word := by
  refine Spells.get_bind (fun s hs => by rw [show s.config = c from hs]) ?_
  have hword := spells_word (c := c) width (signedWord c width)
    (do
      let encoded ← varint
      pure (zigzagDecode encoded))
    (fun source => asI128 (widen c (signFill c source) source))
    (fun h => (spells_varint.bind (steady_under c) fun encoded => Spells.pure _).congr
      fun z bs => by
        constructor
        · rintro ⟨encoded, _, _, ⟨hlt, rfl⟩, ⟨rfl, rfl⟩, rfl⟩
          exact ⟨encoded, hlt, by rw [signedWord, if_pos h], List.append_nil _⟩
        · rintro ⟨word, hlt, rfl, rfl⟩
          exact ⟨word, _, [], ⟨hlt, rfl⟩, ⟨by rw [signedWord, if_pos h], rfl⟩,
            (List.append_nil _).symm⟩)
    (fun h word hlt => by rw [signedWord, if_neg h])
  refine (hword.bind (steady_under c) fun value =>
    spells_fail.ite (Spells.pure value)).congr fun z bs => ?_
  constructor
  · rintro ⟨value, xs, ys, ⟨word, hfits, rfl, rfl⟩, hvalue, rfl⟩
    split at hvalue
    · exact hvalue.elim
    · next hrange =>
        obtain ⟨rfl, rfl⟩ := hvalue
        exact ⟨word, hfits, rfl, by omega, by omega, List.append_nil _⟩
  · rintro ⟨word, hfits, rfl, hmin, hmax, rfl⟩
    refine ⟨_, _, [], ⟨word, hfits, rfl, rfl⟩, ?_, (List.append_nil _).symm⟩
    rw [if_neg (by omega)]
    exact ⟨rfl, rfl⟩

/-! ## Strings -/

omit [Target] in
lemma isWord_length {n : ℕ} (h : n < 2 ^ 64) : IsWord c 8 n := by
  rw [IsWord]
  split <;> omega

lemma spells_readString :
    Spells (Under c) readString fun text bs => ∃ bytes, bytes.length < 2 ^ 64 ∧
      fromUtf8 bytes = some text ∧ bs = spellStr c bytes := by
  refine ((spells_unsigned 8 (2 ^ 64 - 1)).bind (steady_under c) fun len =>
    (spells_take len).bind (M := fun bytes text bs => fromUtf8 bytes = some text ∧ bs = [])
      (steady_under c) fun bytes => ?_).congr fun text bs => ?_
  · cases fromUtf8 bytes with
    | none => exact spells_fail.congr fun text bs => by simp
    | some text => exact (Spells.pure text).congr fun text bs => by simp [eq_comm]
  · constructor
    · rintro ⟨len, _, _, ⟨hmax, -, rfl⟩, ⟨bytes, _, _, ⟨rfl, rfl⟩, ⟨htext, rfl⟩, rfl⟩, rfl⟩
      exact ⟨bytes, by omega, htext, by rw [List.append_nil, spellStr]⟩
    · rintro ⟨bytes, hlt, htext, rfl⟩
      exact ⟨bytes.length, _, _, ⟨by omega, isWord_length hlt, rfl⟩,
        ⟨bytes, bytes, [], ⟨rfl, rfl⟩, ⟨htext, rfl⟩, rfl⟩, by rw [List.append_nil, spellStr]⟩

/-! ## Tokens -/

/-- The integers behind each tag. -/
lemma spells_number (tag : IntTag) (f : Number → Token) :
    Spells (Under c)
      (match tag with
        | .u64 => (fun value => f (.u64 value)) <$> readU64
        | .u128 => (fun value => f (.u128 value)) <$> readU128
        | .i64 => (fun value => f (.i64 value)) <$> readI64
        | .i128 => (fun value => f (.i128 value)) <$> readI128)
      fun token bs => ∃ word, IsWord c tag.width word ∧
        (tag.number c word).map f = some token ∧ bs = spellInt c tag.width word := by
  cases tag with
  | u64 | u128 =>
      refine ((spells_unsigned _ _).map _).congr fun token bs => ?_
      constructor
      · rintro ⟨n, ⟨hmax, hfits, rfl⟩, rfl⟩
        exact ⟨n, hfits, by rw [IntTag.number, if_pos hmax, Option.map_some], rfl⟩
      · rintro ⟨word, hfits, hnumber, rfl⟩
        rw [IntTag.number] at hnumber
        split at hnumber
        · next hmax => exact ⟨word, ⟨hmax, hfits, rfl⟩, (Option.some.inj hnumber).symm⟩
        · simp at hnumber
  | i64 | i128 =>
      refine ((spells_signed _ _ _).map _).congr fun token bs => ?_
      constructor
      · rintro ⟨z, ⟨word, hfits, rfl, hmin, hmax, rfl⟩, rfl⟩
        exact ⟨word, hfits, by rw [IntTag.number, if_pos ⟨hmin, hmax⟩, Option.map_some], rfl⟩
      · rintro ⟨word, hfits, hnumber, rfl⟩
        rw [IntTag.number] at hnumber
        split at hnumber
        · next hrange =>
            exact ⟨_, ⟨word, hfits, rfl, hrange.1, hrange.2, rfl⟩, (Option.some.inj hnumber).symm⟩
        · simp at hnumber

/-- The payload of an integer that is the token `token`. -/
def IntPayload (c : Config) (tag : IntTag) (token : Token) (bs : List UInt8) : Prop :=
  ∃ word, IsWord c tag.width word ∧ (tag.number c word).map .number = some token ∧
    bs = spellInt c tag.width word

/-- The payload of a float that is the token `f bits`. -/
def FloatPayload (c : Config) (width : ℕ) (f : ℕ → Token) (token : Token) (bs : List UInt8) : Prop :=
  ∃ bits, (bits < 256 ^ width ∧ bs = toBytes c width bits) ∧ token = f bits

/-- What a tag is followed by in the spelling of a token, branch by branch. -/
def AfterTag (c : Config) (tag : UInt8) (token : Token) (bs : List UInt8) : Prop :=
  if tag = tagNull then token = .null ∧ bs = []
  else if tag = tagFalse then token = .bool false ∧ bs = []
  else if tag = tagTrue then token = .bool true ∧ bs = []
  else if tag = tagU64 then IntPayload c .u64 token bs
  else if tag = tagU128 then IntPayload c .u128 token bs
  else if tag = tagI64 then IntPayload c .i64 token bs
  else if tag = tagI128 then IntPayload c .i128 token bs
  else if tag = tagF64 then FloatPayload c 8 (fun bits => .number (.f64 bits)) token bs
  else if tag = tagF32 then FloatPayload c 4 (fun bits => .number (.f64 (f32ToF64 bits))) token bs
  else if tag = tagString then
    ∃ text, (∃ bytes, bytes.length < 2 ^ 64 ∧ fromUtf8 bytes = some text ∧ bs = spellStr c bytes) ∧
      token = .str text
  else if tag = tagArray then token = .beginArray ∧ bs = []
  else if tag = tagObject then token = .beginObject ∧ bs = []
  else False

/-- The spellings of a token: a scalar that stands for it, or the tag of a container. -/
def SpellsToken (c : Config) (token : Token) (bs : List UInt8) : Prop :=
  (∃ scalar : WireScalar, scalar.Fits c ∧ scalar.token c = some token ∧ bs = scalar.spell c) ∨
    ∃ kind, token = kindToken kind ∧ bs = [kindTag kind]

lemma spellsToken_of_afterTag {tag : UInt8} {token : Token} {bs : List UInt8}
    (h : AfterTag c tag token bs) : SpellsToken c token (tag :: bs) := by
  have hint {tag : IntTag} (h : IntPayload c tag token bs) : SpellsToken c token (tag.tag :: bs) := by
    obtain ⟨word, hfits, hnumber, rfl⟩ := h
    exact .inl ⟨.int tag word, hfits, hnumber, rfl⟩
  rw [AfterTag] at h
  rcases ite_prop_iff_or.mp h with ⟨rfl, rfl, rfl⟩ | ⟨-, h⟩
  · exact .inl ⟨.null, trivial, rfl, rfl⟩
  rcases ite_prop_iff_or.mp h with ⟨rfl, rfl, rfl⟩ | ⟨-, h⟩
  · exact .inl ⟨.bool false, trivial, rfl, rfl⟩
  rcases ite_prop_iff_or.mp h with ⟨rfl, rfl, rfl⟩ | ⟨-, h⟩
  · exact .inl ⟨.bool true, trivial, rfl, rfl⟩
  rcases ite_prop_iff_or.mp h with ⟨rfl, h⟩ | ⟨-, h⟩
  · exact hint h
  rcases ite_prop_iff_or.mp h with ⟨rfl, h⟩ | ⟨-, h⟩
  · exact hint h
  rcases ite_prop_iff_or.mp h with ⟨rfl, h⟩ | ⟨-, h⟩
  · exact hint h
  rcases ite_prop_iff_or.mp h with ⟨rfl, h⟩ | ⟨-, h⟩
  · exact hint h
  rcases ite_prop_iff_or.mp h with ⟨rfl, bits, ⟨hlt, rfl⟩, rfl⟩ | ⟨-, h⟩
  · exact .inl ⟨.f64 bits, hlt.trans_eq (by norm_num), rfl, rfl⟩
  rcases ite_prop_iff_or.mp h with ⟨rfl, bits, ⟨hlt, rfl⟩, rfl⟩ | ⟨-, h⟩
  · exact .inl ⟨.f32 bits, hlt.trans_eq (by norm_num), rfl, rfl⟩
  rcases ite_prop_iff_or.mp h with ⟨rfl, text, ⟨bytes, hlt, htext, rfl⟩, rfl⟩ | ⟨-, h⟩
  · exact .inl ⟨.str bytes, hlt, by rw [WireScalar.token, htext, Option.map_some], rfl⟩
  rcases ite_prop_iff_or.mp h with ⟨rfl, rfl, rfl⟩ | ⟨-, h⟩
  · exact .inr ⟨.array, rfl, rfl⟩
  rcases ite_prop_iff_or.mp h with ⟨rfl, rfl, rfl⟩ | ⟨-, h⟩
  · exact .inr ⟨.object, rfl, rfl⟩
  exact h.elim

lemma afterTag_of_spellsToken {token : Token} {bs : List UInt8} (h : SpellsToken c token bs) :
    ∃ tag ys, AfterTag c tag token ys ∧ bs = tag :: ys := by
  rcases h with ⟨scalar, hfits, htoken, rfl⟩ | ⟨kind, rfl, rfl⟩
  · cases scalar with
    | null =>
        obtain rfl := Option.some.inj htoken
        exact ⟨tagNull, [], ⟨rfl, rfl⟩, rfl⟩
    | bool value =>
        obtain rfl := Option.some.inj htoken
        cases value with
        | false => exact ⟨tagFalse, [], ⟨rfl, rfl⟩, rfl⟩
        | true => exact ⟨tagTrue, [], ⟨rfl, rfl⟩, rfl⟩
    | int tag word =>
        have hpayload : IntPayload c tag token (spellInt c tag.width word) :=
          ⟨word, hfits, htoken, rfl⟩
        cases tag with
        | u64 => exact ⟨tagU64, _, hpayload, rfl⟩
        | u128 => exact ⟨tagU128, _, hpayload, rfl⟩
        | i64 => exact ⟨tagI64, _, hpayload, rfl⟩
        | i128 => exact ⟨tagI128, _, hpayload, rfl⟩
    | f64 bits =>
        obtain rfl := Option.some.inj htoken
        exact ⟨tagF64, _, ⟨bits, ⟨hfits.trans_eq (by norm_num), rfl⟩, rfl⟩, rfl⟩
    | f32 bits =>
        obtain rfl := Option.some.inj htoken
        exact ⟨tagF32, _, ⟨bits, ⟨hfits.trans_eq (by norm_num), rfl⟩, rfl⟩, rfl⟩
    | str bytes =>
        obtain ⟨text, htext, rfl⟩ := Option.map_eq_some_iff.mp htoken
        exact ⟨tagString, _, ⟨text, ⟨bytes, hfits, htext, rfl⟩, rfl⟩, rfl⟩
  · cases kind with
    | array => exact ⟨tagArray, [], ⟨rfl, rfl⟩, rfl⟩
    | object => exact ⟨tagObject, [], ⟨rfl, rfl⟩, rfl⟩

/-- The branches of `read_token`, one after the other. -/
lemma spells_tagBranches (tag : UInt8) :
    Spells (Under c)
      (if tag = tagNull then pure .null
        else if tag = tagFalse then pure (.bool false)
        else if tag = tagTrue then pure (.bool true)
        else if tag = tagU64 then (fun value => .number (.u64 value)) <$> readU64
        else if tag = tagU128 then (fun value => .number (.u128 value)) <$> readU128
        else if tag = tagI64 then (fun value => .number (.i64 value)) <$> readI64
        else if tag = tagI128 then (fun value => .number (.i128 value)) <$> readI128
        else if tag = tagF64 then (fun bits => .number (.f64 bits)) <$> literal 8
        else if tag = tagF32 then (fun bits => .number (.f64 (f32ToF64 bits))) <$> literal 4
        else if tag = tagString then .str <$> readString
        else if tag = tagArray then pure .beginArray
        else if tag = tagObject then pure .beginObject
        else if tag = tagEnd then fail (.custom "unexpected end-of-container terminator")
        else fail (.custom "invalid value tag") : Dec Token)
      (AfterTag c tag) := by
  refine (Spells.pure _).ite <| (Spells.pure _).ite <| (Spells.pure _).ite <| ?_
  refine (spells_number .u64 .number).ite <| (spells_number .u128 .number).ite <| ?_
  refine (spells_number .i64 .number).ite <| (spells_number .i128 .number).ite <| ?_
  refine ((spells_literal 8).map _).ite <| ((spells_literal 4).map _).ite <| ?_
  refine (spells_readString.map _).ite <| (Spells.pure _).ite <| (Spells.pure _).ite <| ?_
  refine Spells.never fun s _ a t => ?_
  split <;> exact fail_ne_ok

lemma spells_readToken : Spells (Under c) readToken (SpellsToken c) := by
  refine (spells_byte.bind (steady_under c) spells_tagBranches).congr fun token bs => ?_
  constructor
  · rintro ⟨tag, _, ys, rfl, hafter, rfl⟩
    exact spellsToken_of_afterTag hafter
  · intro h
    obtain ⟨tag, ys, hafter, rfl⟩ := afterTag_of_spellsToken h
    exact ⟨tag, [tag], ys, rfl, hafter, rfl⟩

end RustBinary.Native
