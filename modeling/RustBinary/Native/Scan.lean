import RustBinary.Native.Wire
import RustBinary.Native.Probe
import RustBinary.Core.Varint

/-!
# What the walker reads

The values of the walker are those of the wire, with the varints in little-endian order, and with
strings that have no text where lengths have a fixed width.  The walker goes over such a value, and
over nothing else, and counts what it is made of.
-/

namespace RustBinary.Native

open Lib Lib.Act

instance : Tape Walker UInt8 where
  Here s bs := Window s.input.bytes s.config.limit s.cursor bs
  advance s n := { s with cursor := s.cursor + n }
  advance_zero _ := rfl
  advance_advance _ _ _ := by simp only [Nat.add_assoc]
  here_append _ _ _ := window_append

namespace Walker

/-- The walkers of the configuration `c`. -/
def Under (c : Config) (s : Walker) : Prop := s.config = c

lemma steady_under (c : Config) : Steady (Under c) := fun _ _ h => h

variable {c : Config}

lemma spells_throw {α : Type} {e : Error} :
    Spells (Under c) (throw e : Walk α) fun _ (_ : List UInt8) => False :=
  Spells.never fun _ _ _ _ h => by cases h

/-! ## Bytes -/

lemma stopAt_eq_ok {len stop : ℕ} {s t : Walker} :
    stopAt len s = (.ok stop, t) ↔ (s.cursor + len ≤ u64Max ∧
      ∀ l, s.config.limit = some l → s.cursor + len ≤ l) ∧ stop = s.cursor + len ∧ t = s := by
  rw [stopAt, get_bind_run, checkedAdd]
  split
  · next hle =>
      rw [okOr_some, pure_bind_run, bind_eq_ok]
      simp only [atMost_eq_ok, pure_run, Prod.mk.injEq, Outcome.ok.injEq]
      constructor
      · rintro ⟨_, _, ⟨hlimit, rfl⟩, rfl, rfl⟩
        exact ⟨⟨hle, hlimit⟩, rfl, rfl⟩
      · rintro ⟨⟨-, hlimit⟩, rfl, rfl⟩
        exact ⟨(), t, ⟨hlimit, rfl⟩, rfl, rfl⟩
  · next hgt =>
      rw [okOr_none, throw_bind_run]
      constructor
      · intro h
        cases h
      · rintro ⟨⟨hle, -⟩, -⟩
        exact absurd hle hgt

lemma spells_payload (len : ℕ) :
    Spells (Under c) (payload len) fun bytes bs => bytes = bs ∧ bs.length = len := by
  intro s _ _ bytes t
  rw [payload]
  simp only [bind_eq_ok, stopAt_eq_ok, upTo, get_run, okOr_eq_ok, modify_run, pure_run,
    Prod.mk.injEq, Outcome.ok.injEq]
  constructor
  · rintro ⟨_, _, ⟨⟨-, hlimit⟩, rfl, rfl⟩, _, _, ⟨rfl, rfl⟩, read, _, ⟨hslice, rfl⟩, _, _,
      ⟨-, rfl⟩, rfl, rfl⟩
    have hlen : read.length = len := by
      rw [slice_length hslice]
      omega
    subst hlen
    exact ⟨read, ⟨rfl, rfl⟩, ⟨hslice, hlimit⟩, rfl⟩
  · rintro ⟨bs, ⟨rfl, rfl⟩, ⟨hslice, hlimit⟩, rfl⟩
    have hmax : s.cursor + bytes.length ≤ u64Max :=
      (slice_eq_some.mp hslice).2.1.trans s.input.length_le
    exact ⟨_, _, ⟨⟨hmax, hlimit⟩, rfl, rfl⟩, _, _, ⟨rfl, rfl⟩, _, _, ⟨hslice, rfl⟩, (), _,
      ⟨trivial, rfl⟩, rfl, rfl⟩

/-- What is taken are the next bytes, whatever they are. -/
lemma spells_take (len : ℕ) : Spells (Under c) (take len) fun _ bs => bs.length = len := by
  intro s _ _ u t
  rw [take, bind_eq_ok]
  simp only [stopAt_eq_ok, get_bind_run]
  constructor
  · rintro ⟨_, _, ⟨⟨-, hlimit⟩, rfl, hsame⟩, h⟩
    rw [hsame] at h
    split at h
    · cases h
    · next hlen =>
        cases h
        have hbytes : ((s.input.bytes.drop s.cursor).take len).length = len := by
          rw [List.length_take, List.length_drop]
          omega
        refine ⟨(s.input.bytes.drop s.cursor).take len, hbytes, ?_, by rw [hbytes]; rfl⟩
        rw [← hbytes] at hlimit
        refine ⟨slice_eq_some.mpr ⟨Nat.le_add_right _ _, ?_, ?_⟩, hlimit⟩
        · omega
        · rw [hbytes, Nat.add_sub_cancel_left]
  · rintro ⟨bs, rfl, ⟨hslice, hlimit⟩, rfl⟩
    have hlen := (slice_eq_some.mp hslice).2.1
    refine ⟨_, s, ⟨⟨hlen.trans s.input.length_le, hlimit⟩, rfl, rfl⟩, ?_⟩
    rw [if_neg (Nat.not_lt.mpr hlen)]
    rfl

lemma last_advance {s : Walker} {byte : UInt8} (h : Tape.Here s [byte]) :
    last (Tape.advance s 1) = (.ok byte, Tape.advance s 1) := by
  have hget : s.input.bytes[s.cursor]? = some byte := by
    obtain ⟨byte', hget, heq⟩ := Option.map_eq_some_iff.mp ((slice_one _ _).symm.trans h.1)
    rw [hget, List.singleton_inj.mp heq]
  rw [last, get_bind_run, show (Tape.advance s 1).cursor - 1 = s.cursor from Nat.add_sub_cancel _ _,
    show (Tape.advance s 1).input = s.input from rfl, hget]
  rfl

lemma spells_byte : Spells (Under c) byte fun first bs => bs = [first] := by
  intro s hs hhere first t
  rw [byte, bind_eq_ok]
  simp only [spells_take 1 s hs hhere _ _]
  constructor
  · rintro ⟨_, _, ⟨bs, hlen, hbs, rfl⟩, h⟩
    obtain ⟨byte, rfl⟩ := List.length_eq_one_iff.mp hlen
    rw [List.length_singleton, last_advance hbs] at h
    cases h
    exact ⟨[first], rfl, hbs, rfl⟩
  · rintro ⟨_, rfl, hbs, rfl⟩
    exact ⟨(), _, ⟨[first], rfl, hbs, rfl⟩, last_advance hbs⟩

/-! ## Numbers and texts -/

/-- The configuration, in little-endian order. -/
def little (c : Config) : Config := { c with endian := .little }

variable [Target]

omit [Target] in
lemma payloadLen_wide {marker : UInt8} {width minimum : ℕ}
    (h : (marker, width, minimum) ∈ wideForms) : payloadLen marker = pure width := by
  simp only [wideForms, List.mem_cons, Prod.mk.injEq, List.not_mem_nil, or_false] at h
  rcases h with ⟨rfl, rfl, -⟩ | ⟨rfl, rfl, -⟩ | ⟨rfl, rfl, -⟩ | ⟨rfl, rfl, -⟩ <;> rfl

lemma spells_varint :
    Spells (Under c) varint fun n bs => n < 2 ^ 128 ∧ bs = spellVarint (little c) n := by
  have hbytes : ∀ k m : ℕ, toBytes (little c) k m = leBytes k m := fun _ _ => rfl
  change Spells (Under c) varint fun n bs => n < 2 ^ 128 ∧ bs = varintBy (toBytes (little c)) n
  refine spells_varintBy (steady_under c) spells_byte ?_ ?_ ?_
  · intro marker hle
    rw [if_pos hle]
    exact Spells.pure _
  · intro marker width minimum hform
    rw [if_neg (Nat.not_le.mpr (lt_of_mem_wideForms hform)), payloadLen_wide hform, pure_bind]
    refine ((spells_payload width).bind (steady_under c) fun bytes => Spells.okOr _ _).congr
      fun n bs => ?_
    constructor
    · rintro ⟨bytes, _, _, ⟨rfl, hlen⟩, ⟨hdecode, rfl⟩, rfl⟩
      rw [decodeVarintLe_wide hform hlen, atLeast] at hdecode
      split at hdecode
      · simp at hdecode
      · next hmin =>
          obtain rfl := Option.some.inj hdecode
          refine ⟨Nat.le_of_not_lt hmin, hlen ▸ leNat_lt bytes, ?_⟩
          rw [hbytes, List.append_nil, ← hlen, leBytes_leNat]
    · rintro ⟨hmin, hlt, rfl⟩
      refine ⟨_, _, [], ⟨rfl, length_toBytes _ width n⟩, ⟨?_, rfl⟩, (List.append_nil _).symm⟩
      rw [decodeVarintLe_wide hform (length_toBytes _ width n), hbytes, leNat_leBytes hlt, atLeast,
        if_neg (Nat.not_lt.mpr hmin)]
  · rw [if_neg (by decide)]
    refine Spells.never fun s _ n t h => ?_
    rw [show payloadLen 255 = Act.throw (Error.invalidVarintMarker 255) from rfl,
      throw_bind_run] at h
    cases h

/-- Every text of the right width is the payload of a number. -/
lemma exists_toBytes {width : ℕ} {bs : List UInt8} :
    (∃ word, word < 256 ^ width ∧ bs = toBytes c width word) ↔ bs.length = width := by
  constructor
  · rintro ⟨word, -, rfl⟩
    exact length_toBytes c width word
  · rintro rfl
    exact ⟨Decoder.fromBytes c bs, fromBytes_lt c bs, (toBytes_fromBytes c bs).symm⟩

lemma spells_number (width : ℕ) :
    Spells (Under c) (number width) fun _ bs =>
      ∃ word, IsWord c width word ∧ bs = spellInt (little c) width word := by
  refine Spells.get_bind (fun s hs => by rw [show s.config = c from hs]) ?_
  by_cases h : c.integers = .variable ∧ 1 < width
  · have h' : (little c).integers = .variable ∧ 1 < width := h
    simp only [IsWord, spellInt, if_pos h, if_pos h']
    refine (spells_varint.map _).congr fun _ bs => ?_
    simp only [and_true]
  · have h' : ¬ ((little c).integers = .variable ∧ 1 < width) := h
    simp only [IsWord, spellInt, if_neg h, if_neg h']
    exact (spells_take width).congr fun _ bs => exists_toBytes.symm

/-- The texts that have room in a string of the walker. -/
def TextFits (c : Config) (bytes : List UInt8) : Prop :=
  if c.integers = .variable then bytes.length < 2 ^ 64 else bytes.length = 8

/-- A string of the walker: a length and as many bytes, or the bytes of a length. -/
def scanText (c : Config) (bytes : List UInt8) : List UInt8 :=
  if c.integers = .variable then spellStr (little c) bytes else bytes

lemma spells_text : Spells (Under c) text fun _ bs => ∃ bytes, TextFits c bytes ∧
    bs = scanText c bytes := by
  by_cases h : c.integers = .variable
  · have hlength : Spells (Under c) length fun n bs => n < 2 ^ 64 ∧
        bs = spellVarint (little c) n := by
      refine Spells.get_bind (fun s hs => by rw [show s.config = c from hs, if_pos h]) ?_
      refine (spells_varint.bind (steady_under c) fun value =>
        (Spells.pure value).ite spells_throw).congr fun n bs => ?_
      constructor
      · rintro ⟨value, _, ys, ⟨hlt, rfl⟩, hvalue, rfl⟩
        split at hvalue
        · next hle =>
            obtain ⟨rfl, rfl⟩ := hvalue
            exact ⟨Nat.lt_of_le_of_lt hle (by decide), List.append_nil _⟩
        · exact hvalue.elim
      · rintro ⟨hlt, rfl⟩
        refine ⟨n, _, [], ⟨hlt.trans (by decide), rfl⟩, ?_, (List.append_nil _).symm⟩
        rw [if_pos (show n ≤ u64Max by rw [u64Max]; omega)]
        exact ⟨rfl, rfl⟩
    refine (hlength.bind (steady_under c) fun len => spells_take len).congr fun _ bs => ?_
    have hint : ∀ n, spellInt (little c) 8 n = spellVarint (little c) n :=
      fun n => if_pos ⟨h, by decide⟩
    simp only [TextFits, scanText, if_pos h, spellStr, hint]
    constructor
    · rintro ⟨len, _, bytes, ⟨hlt, rfl⟩, rfl, rfl⟩
      exact ⟨bytes, hlt, rfl⟩
    · rintro ⟨bytes, hlt, rfl⟩
      exact ⟨_, _, _, ⟨hlt, rfl⟩, rfl, rfl⟩
  · have hlength : Spells (Under c) length fun n bs => n = 0 ∧ bs.length = 8 := by
      refine Spells.get_bind (fun s hs => by rw [show s.config = c from hs, if_neg h]) ?_
      refine ((spells_take 8).bind (steady_under c) fun _ => Spells.pure 0).congr fun n bs => ?_
      constructor
      · rintro ⟨_, xs, _, hlen, ⟨rfl, rfl⟩, rfl⟩
        exact ⟨rfl, by rw [List.append_nil, hlen]⟩
      · rintro ⟨rfl, hlen⟩
        exact ⟨(), bs, [], hlen, ⟨rfl, rfl⟩, (List.append_nil _).symm⟩
    refine (hlength.bind (steady_under c) fun len => spells_take len).congr fun _ bs => ?_
    simp only [TextFits, scanText, if_neg h]
    constructor
    · rintro ⟨_, xs, ys, ⟨rfl, hlen⟩, hnil, rfl⟩
      obtain rfl := List.length_eq_zero_iff.mp hnil
      exact ⟨xs, hlen, List.append_nil _⟩
    · rintro ⟨bytes, hlen, rfl⟩
      exact ⟨0, _, [], ⟨rfl, hlen⟩, rfl, (List.append_nil _).symm⟩

/-! ## Scalars -/

/-- What a walker takes for a scalar. -/
def scanScalar (c : Config) : WireScalar → List UInt8
  | .str bytes => tagString :: scanText c bytes
  | scalar => scalar.spell (little c)

def ScalarFits (c : Config) : WireScalar → Prop
  | .str bytes => TextFits c bytes
  | scalar => scalar.Fits c

/-- What follows the tag of a scalar, branch by branch. -/
def AfterTag (c : Config) (tag : UInt8) (bs : List UInt8) : Prop :=
  if tag = tagNull ∨ tag = tagFalse ∨ tag = tagTrue then bs = []
  else if tag = tagU64 ∨ tag = tagI64 then ∃ word, IsWord c 8 word ∧ bs = spellInt (little c) 8 word
  else if tag = tagU128 ∨ tag = tagI128 then
    ∃ word, IsWord c 16 word ∧ bs = spellInt (little c) 16 word
  else if tag = tagF64 then bs.length = 8
  else if tag = tagF32 then bs.length = 4
  else if tag = tagString then ∃ bytes, TextFits c bytes ∧ bs = scanText c bytes
  else False

lemma scalar_of_afterTag {tag : UInt8} {bs : List UInt8} (h : AfterTag c tag bs) :
    ∃ scalar, ScalarFits c scalar ∧ tag :: bs = scanScalar c scalar := by
  rw [AfterTag] at h
  rcases ite_prop_iff_or.mp h with ⟨rfl | rfl | rfl, rfl⟩ | ⟨-, h⟩
  · exact ⟨.null, trivial, rfl⟩
  · exact ⟨.bool false, trivial, rfl⟩
  · exact ⟨.bool true, trivial, rfl⟩
  rcases ite_prop_iff_or.mp h with ⟨rfl | rfl, word, hfits, rfl⟩ | ⟨-, h⟩
  · exact ⟨.int .u64 word, hfits, rfl⟩
  · exact ⟨.int .i64 word, hfits, rfl⟩
  rcases ite_prop_iff_or.mp h with ⟨rfl | rfl, word, hfits, rfl⟩ | ⟨-, h⟩
  · exact ⟨.int .u128 word, hfits, rfl⟩
  · exact ⟨.int .i128 word, hfits, rfl⟩
  rcases ite_prop_iff_or.mp h with ⟨rfl, hlen⟩ | ⟨-, h⟩
  · obtain ⟨bits, hbits, rfl⟩ := (exists_toBytes (c := little c)).mpr hlen
    exact ⟨.f64 bits, hbits.trans_eq (by norm_num), rfl⟩
  rcases ite_prop_iff_or.mp h with ⟨rfl, hlen⟩ | ⟨-, h⟩
  · obtain ⟨bits, hbits, rfl⟩ := (exists_toBytes (c := little c)).mpr hlen
    exact ⟨.f32 bits, hbits.trans_eq (by norm_num), rfl⟩
  rcases ite_prop_iff_or.mp h with ⟨rfl, bytes, hfits, rfl⟩ | ⟨-, h⟩
  · exact ⟨.str bytes, hfits, rfl⟩
  exact h.elim

lemma afterTag_of_scalar {scalar : WireScalar} (hfits : ScalarFits c scalar) :
    ∃ tag ys, AfterTag c tag ys ∧ scanScalar c scalar = tag :: ys := by
  cases scalar with
  | null => exact ⟨tagNull, [], rfl, rfl⟩
  | bool value =>
      cases value with
      | false => exact ⟨tagFalse, [], rfl, rfl⟩
      | true => exact ⟨tagTrue, [], rfl, rfl⟩
  | int tag word =>
      cases tag with
      | u64 => exact ⟨tagU64, _, ⟨word, hfits, rfl⟩, rfl⟩
      | u128 => exact ⟨tagU128, _, ⟨word, hfits, rfl⟩, rfl⟩
      | i64 => exact ⟨tagI64, _, ⟨word, hfits, rfl⟩, rfl⟩
      | i128 => exact ⟨tagI128, _, ⟨word, hfits, rfl⟩, rfl⟩
  | f64 bits => exact ⟨tagF64, _, length_toBytes _ 8 bits, rfl⟩
  | f32 bits => exact ⟨tagF32, _, length_toBytes _ 4 bits, rfl⟩
  | str bytes => exact ⟨tagString, _, ⟨bytes, hfits, rfl⟩, rfl⟩

/-- The branches behind a tag that does not open a container. -/
lemma spells_afterTag (loop : Kind → Walk ℕ) {tag : UInt8} (h : ∀ kind, tag ≠ kindTag kind) :
    Spells (Under c) (afterTag loop tag) fun _ bs => AfterTag c tag bs := by
  have hcontainer : ∀ kind {m n : Walk Unit}, (if tag = kindTag kind then m else n) = n :=
    fun kind _ _ => if_neg (h kind)
  refine ((Spells.pure ()).congr fun _ _ => ?_).ite <| (spells_number 8).ite <|
    (spells_number 16).ite <| (spells_take 8).ite <| (spells_take 4).ite <| spells_text.ite ?_
  · simp
  rw [show tagArray = kindTag .array from rfl, hcontainer,
    show tagObject = kindTag .object from rfl, hcontainer]
  exact (spells_throw.ite spells_throw).congr fun _ _ => iff_of_eq (ite_self _)

/-! ## Values -/

def scanKey (c : Config) : {kind : Kind} → KeyOf (List UInt8) kind → List UInt8
  | .array, _ => []
  | .object, key => tagString :: scanText c key

mutual

/-- What a walker takes for a value. -/
def scanValue (c : Config) : WireValue → List UInt8
  | .scalar value => scanScalar c value
  | .node kind entries => kindTag kind :: (scanEntries c entries ++ [tagEnd])

def scanEntries (c : Config) {kind : Kind} : WireEntries kind → List UInt8
  | .nil => []
  | .cons key value rest => scanKey c key ++ (scanValue c value ++ scanEntries c rest)

end

lemma spells_key (kind : Kind) : Spells (Under c) (key kind) fun _ bs =>
    ∃ text : KeyOf (List UInt8) kind, text.All (TextFits c) ∧ bs = scanKey c text := by
  cases kind with
  | array =>
      refine (Spells.pure ()).congr fun _ bs => ?_
      exact ⟨fun h => ⟨(), trivial, h.2⟩, fun ⟨_, _, h⟩ => ⟨rfl, h⟩⟩
  | object =>
      refine (spells_byte.bind (steady_under c) fun tag => spells_throw.ite spells_text).congr
        fun _ bs => ?_
      constructor
      · rintro ⟨tag, _, ys, rfl, htext, rfl⟩
        split at htext
        · exact htext.elim
        · next htag =>
            obtain ⟨bytes, hfits, rfl⟩ := htext
            exact ⟨bytes, hfits, by rw [not_not.mp htag]; rfl⟩
      · rintro ⟨bytes, hfits, rfl⟩
        refine ⟨tagString, [tagString], scanText c bytes, rfl, ?_, rfl⟩
        rw [if_neg (not_not.mpr rfl)]
        exact ⟨bytes, hfits, rfl⟩

/-- No value starts with the terminator. -/
lemma scanValue_cons (wire : WireValue) :
    ∃ byte bs, scanValue c wire = byte :: bs ∧ byte ≠ tagEnd := by
  cases wire with
  | scalar scalar =>
      rw [scanValue]
      cases scalar with
      | null => exact ⟨_, _, rfl, by decide⟩
      | bool value => cases value <;> exact ⟨_, _, rfl, by decide⟩
      | int tag word => exact ⟨_, _, rfl, by cases tag <;> decide⟩
      | f64 | f32 | str => exact ⟨_, _, rfl, by decide⟩
  | node kind entries => exact ⟨_, _, rfl, by cases kind <;> decide⟩

/-- No entry starts with the terminator. -/
lemma scanEntry_cons {kind : Kind} (key : KeyOf (List UInt8) kind) (wire : WireValue) :
    ∃ byte bs, scanKey c key ++ scanValue c wire = byte :: bs ∧ byte ≠ tagEnd := by
  cases kind with
  | array => exact scanValue_cons wire
  | object => exact ⟨_, _, rfl, by decide⟩

/-! ## The walk -/

/-- The next byte. -/
def next (s : Walker) : Option UInt8 := s.input.bytes[s.cursor]?

omit [Target] in
lemma next_of_here {s : Walker} {byte : UInt8} {bs : List UInt8} (h : Tape.Here s (byte :: bs)) :
    next s = some byte := by
  obtain ⟨⟨hslice, -⟩, -⟩ := window_append.mp (show Window _ _ _ ([byte] ++ bs) from h)
  rw [List.length_singleton, slice_one] at hslice
  obtain ⟨byte', hnext, heq⟩ := Option.map_eq_some_iff.mp hslice
  rw [next, hnext, List.singleton_inj.mp heq]

/-- The walker behind `bytes` bytes with as many containers and entries, `height` levels high. -/
def past (s : Walker) (bytes containers elements height : ℕ) : Walker :=
  { s with
    cursor := s.cursor + bytes
    containers := s.containers + containers
    elements := s.elements + elements
    maxDepth := max s.maxDepth (s.depth + height) }

/-- The walker inside a container, behind its tag. -/
def inside (s : Walker) : Walker :=
  { s with
    cursor := s.cursor + 1
    containers := s.containers + 1
    depth := s.depth + 1
    maxDepth := max s.maxDepth (s.depth + 1) }

/-- A walker in front of a value. -/
structure Ready (c : Config) (s : Walker) : Prop where
  under : s.config = c
  depth_le : s.depth ≤ s.maxDepth
  here : Tape.Here s ([] : List UInt8)

omit [Target] in
lemma Ready.past {s : Walker} (hs : Ready c s) {bs : List UInt8} (h : Tape.Here s bs)
    (containers elements height : ℕ) : Ready c (s.past bs.length containers elements height) :=
  ⟨hs.under, hs.depth_le.trans (le_max_left _ _), h.after⟩

omit [Target] in
lemma Ready.advance {s : Walker} (hs : Ready c s) {bs : List UInt8} (h : Tape.Here s bs) :
    Ready c (Tape.advance s bs.length) := ⟨hs.under, hs.depth_le, h.after⟩

omit [Target] in
lemma Ready.inside {s : Walker} (hs : Ready c s) {byte : UInt8} (h : Tape.Here s [byte]) :
    Ready c s.inside := ⟨hs.under, le_max_right _ _, h.after⟩

omit [Target] in
lemma Ready.past_zero {s : Walker} (hs : Ready c s) (n : ℕ) :
    s.past n 0 0 0 = Tape.advance s n := by
  have hmax : max s.maxDepth (s.depth + 0) = s.maxDepth := max_eq_left hs.depth_le
  rw [Walker.past, hmax]
  rfl

omit [Target] in
lemma past_over (s : Walker) (a b c d a' b' c' d' : ℕ) :
    (s.past a b c d).past a' b' c' d' = s.past (a + a') (b + b') (c + c') (max d d') := by
  simp only [past, Nat.add_assoc, Walker.mk.injEq, true_and]
  omega

omit [Target] in
lemma past_advance (s : Walker) (n a b c d : ℕ) :
    (Tape.advance s n).past a b c d = s.past (n + a) b c d := by
  simp only [past, Tape.advance, Nat.add_assoc]

omit [Target] in
/-- What the walker has counted in a container, the container counted in. -/
lemma leave_inside (s : Walker) (a b c d total : ℕ) :
    { s.inside.past a b c d with
      elements := (s.inside.past a b c d).elements + total
      depth := (s.inside.past a b c d).depth - 1 } = s.past (a + 1) (b + 1) (c + total) (d + 1) := by
  simp only [past, inside, Walker.mk.injEq, true_and]
  omega

omit [Target] in
lemma enter_advance (s : Walker) :
    (s.depth < s.config.depthLimit ∧ enter (Tape.advance s 1) = (.ok (), s.inside)) ∨
      ¬ s.depth < s.config.depthLimit ∧ ∃ e t, enter (Tape.advance s 1) = (.err e, t) := by
  rw [enter, modify_bind_run, get_bind_run]
  by_cases h : s.config.depthLimit ≤ s.depth
  · refine .inr ⟨Nat.not_lt.mpr h, .custom "decoder nesting depth limit exceeded",
      { Tape.advance s 1 with containers := s.containers + 1 }, ?_⟩
    change (if s.config.depthLimit ≤ s.depth then (Act.throw _ : Walk Unit) else _) _ = _
    rw [if_pos h]
    rfl
  · refine .inl ⟨Nat.lt_of_not_le h, ?_⟩
    change (if s.config.depthLimit ≤ s.depth then (Act.throw _ : Walk Unit) else _) _ = _
    rw [if_neg h]
    rfl

omit [Target] in
lemma container_eq_ok {loop : Walk ℕ} {s t : Walker} {u : Unit} :
    container loop (Tape.advance s 1) = (.ok u, t) ↔ s.depth < s.config.depthLimit ∧
      ∃ total v, loop s.inside = (.ok total, v) ∧
        t = { v with elements := v.elements + total, depth := v.depth - 1 } := by
  rw [container]
  rcases enter_advance s with ⟨hlt, henter⟩ | ⟨hge, e, v, henter⟩
  · rw [bind_of_ok henter, bind_eq_ok]
    simp only [leave, modify_run, Prod.mk.injEq, hlt, true_and]
    constructor
    · rintro ⟨total, v, hloop, rfl⟩
      exact ⟨total, v, hloop, rfl⟩
    · rintro ⟨total, v, hloop, rfl⟩
      exact ⟨total, v, hloop, rfl⟩
  · rw [bind_of_err henter]
    simp [hge]

/-- A value is a scalar or a container. -/
lemma value_succ {n : ℕ} {s t : Walker} {u : Unit} (hs : Ready c s) :
    value (n + 1) s = (.ok u, t) ↔
      (∃ scalar, ScalarFits c scalar ∧ Tape.Here s (scanScalar c scalar) ∧
        t = Tape.advance s (scanScalar c scalar).length) ∨
      ∃ kind, Tape.Here s [kindTag kind] ∧
        container (entries n kind 0) (Tape.advance s 1) = (.ok u, t) := by
  have hkind : ∀ kind, afterTag (fun kind => entries n kind 0) (kindTag kind) =
      container (entries n kind 0) := fun kind => by cases kind <;> rfl
  rw [value, bind_eq_ok]
  simp only [spells_byte s hs.under hs.here]
  constructor
  · rintro ⟨tag, _, ⟨_, rfl, htag, rfl⟩, h⟩
    by_cases hcontainer : ∃ kind, tag = kindTag kind
    · obtain ⟨kind, rfl⟩ := hcontainer
      rw [hkind] at h
      exact .inr ⟨kind, htag, h⟩
    · obtain ⟨bs, hafter, hbs, rfl⟩ := (spells_afterTag _ (by simpa using hcontainer) _
        (steady_under c s _ hs.under) htag.after _ _).mp h
      obtain ⟨scalar, hfits, hscan⟩ := scalar_of_afterTag hafter
      refine .inl ⟨scalar, hfits, ?_, ?_⟩
      · rw [← hscan]
        exact (Tape.here_append s [tag] bs).mpr ⟨htag, hbs⟩
      · rw [← hscan, Tape.advance_advance, List.length_singleton, List.length_cons, Nat.add_comm]
  · rintro (⟨scalar, hfits, hhere, rfl⟩ | ⟨kind, htag, h⟩)
    · obtain ⟨tag, ys, hafter, hscan⟩ := afterTag_of_scalar hfits
      rw [hscan] at hhere ⊢
      obtain ⟨htag, hys⟩ := (Tape.here_append s [tag] ys).mp hhere
      refine ⟨tag, _, ⟨[tag], rfl, htag, rfl⟩, ?_⟩
      refine (spells_afterTag _ ?_ _ (steady_under c s _ hs.under) htag.after _ _).mpr
        ⟨ys, hafter, hys, ?_⟩
      · rintro kind rfl
        cases kind <;> exact hafter.elim
      · rw [Tape.advance_advance, List.length_singleton, List.length_cons, Nat.add_comm]
    · refine ⟨kindTag kind, _, ⟨_, rfl, htag, rfl⟩, ?_⟩
      rw [hkind]
      exact h

/-- A round of the loop is at the end, or goes over one entry. -/
lemma entries_succ {n passed total : ℕ} {kind : Kind} {s t : Walker} (hs : Ready c s) :
    entries (n + 1) kind passed s = (.ok total, t) ↔
      (Tape.Here s [tagEnd] ∧ total = passed ∧ t = Tape.advance s 1) ∨
      (∃ byte, next s = some byte ∧ byte ≠ tagEnd) ∧
        (∀ l, c.collectionLimit = some l → passed + 1 ≤ l) ∧
        ∃ (text : KeyOf (List UInt8) kind) (v : Walker), text.All (TextFits c) ∧
          Tape.Here s (scanKey c text) ∧
          value n (Tape.advance s (scanKey c text).length) = (.ok (), v) ∧
          entries n kind (passed + 1) v = (.ok total, t) := by
  rw [entries, peek]
  cases hnext : next s with
  | none =>
      have hpeek : (Act.get >>= fun s => okOr s.input.bytes[s.cursor]? .unexpectedEnd : Walk UInt8) s
          = (.err .unexpectedEnd, s) := by
        rw [get_bind_run, show s.input.bytes[s.cursor]? = none from hnext]
        rfl
      rw [bind_of_err hpeek]
      constructor
      · intro h
        cases h
      · rintro (⟨hhere, -⟩ | ⟨⟨byte, hbyte, -⟩, -⟩)
        · rw [next_of_here hhere] at hnext
          cases hnext
        · cases hbyte
  | some byte =>
      have hpeek : (Act.get >>= fun s => okOr s.input.bytes[s.cursor]? .unexpectedEnd : Walk UInt8) s
          = (.ok byte, s) := by
        rw [get_bind_run, show s.input.bytes[s.cursor]? = some byte from hnext]
        rfl
      rw [bind_of_ok hpeek]
      by_cases hend : byte = tagEnd
      · subst hend
        rw [if_pos rfl, bind_eq_ok]
        simp only [spells_take 1 s hs.under hs.here, pure_run, Prod.mk.injEq, Outcome.ok.injEq]
        constructor
        · rintro ⟨_, _, ⟨bs, hlen, hbs, rfl⟩, rfl, rfl⟩
          obtain ⟨byte, rfl⟩ := List.length_eq_one_iff.mp hlen
          rw [next_of_here hbs] at hnext
          cases hnext
          exact .inl ⟨hbs, rfl, rfl⟩
        · rintro (⟨hhere, rfl, rfl⟩ | ⟨⟨byte, hbyte, hne⟩, -⟩)
          · exact ⟨(), _, ⟨[tagEnd], rfl, hhere, rfl⟩, rfl, rfl⟩
          · exact absurd (Option.some.inj hbyte).symm hne
      · rw [if_neg hend]
        have hcount : ∀ {u : Unit} {v : Walker}, count (passed + 1) s = (.ok u, v) ↔
            (∀ l, c.collectionLimit = some l → passed + 1 ≤ l) ∧ v = s := by
          intro u v
          rw [count, get_bind_run, atMost_eq_ok, hs.under]
        simp only [bind_eq_ok, hcount]
        constructor
        · rintro ⟨_, _, ⟨hlimit, rfl⟩, _, _, hkey, ⟨⟩, v, hvalue, hrest⟩
          obtain ⟨_, ⟨text, hfits, rfl⟩, hhere, rfl⟩ :=
            (spells_key kind _ hs.under hs.here _ _).mp hkey
          exact .inr ⟨⟨byte, rfl, hend⟩, hlimit, text, v, hfits, hhere, hvalue, hrest⟩
        · rintro (⟨hhere, -⟩ | ⟨-, hlimit, text, v, hfits, hhere, hvalue, hrest⟩)
          · rw [next_of_here hhere] at hnext
            cases hnext
            exact absurd rfl hend
          · exact ⟨(), s, ⟨hlimit, rfl⟩, (), _, (spells_key kind _ hs.under hs.here _ _).mpr
              ⟨_, ⟨text, hfits, rfl⟩, hhere, rfl⟩, (), v, hvalue, hrest⟩

/-- A walker is in front of a value that the limits admit. -/
structure Admits (c : Config) (s : Walker) (wire : WireValue) : Prop where
  fits : wire.All (ScalarFits c) (TextFits c)
  within : wire.Within c.collectionLimit (c.depthLimit - s.depth)
  here : Tape.Here s (scanValue c wire)

/-- A walker is inside a container, behind `passed` entries and in front of the others. -/
structure AdmitsEntries (c : Config) (s : Walker) (passed : ℕ) {kind : Kind}
    (wire : WireEntries kind) : Prop where
  fits : wire.All (ScalarFits c) (TextFits c)
  within : wire.Within c.collectionLimit (c.depthLimit - s.depth)
  length_le : 0 < wire.length → ∀ l, c.collectionLimit = some l → passed + wire.length ≤ l
  here : Tape.Here s (scanEntries c wire ++ [tagEnd])

/-- The walker goes over the values that the limits admit, and counts what they are made of. -/
lemma value_eq_ok (n : ℕ) :
    (∀ s t u, Ready c s → (value n s = (.ok u, t) ↔ ∃ wire : WireValue, wire.rounds ≤ n ∧
      Admits c s wire ∧
        t = s.past (scanValue c wire).length wire.containers wire.elements wire.height)) ∧
      ∀ s t kind passed total, Ready c s → (entries n kind passed s = (.ok total, t) ↔
        ∃ wire : WireEntries kind, wire.rounds ≤ n ∧ AdmitsEntries c s passed wire ∧
          total = passed + wire.length ∧ t = s.past ((scanEntries c wire).length + 1)
            wire.containers wire.elements wire.height) := by
  induction n with
  | zero =>
      constructor
      · intro s t u _
        constructor
        · intro h
          rw [value] at h
          cases h
        · rintro ⟨wire, hrounds, -⟩
          cases wire <;> simp [Tree.rounds] at hrounds
      · intro s t kind passed total _
        constructor
        · intro h
          rw [entries] at h
          cases h
        · rintro ⟨wire, hrounds, -⟩
          cases wire <;> simp [Forest.rounds] at hrounds
  | succ n ih =>
      obtain ⟨ihvalue, ihentries⟩ := ih
      constructor
      · intro s t u hs
        rw [value_succ hs]
        constructor
        · rintro (⟨scalar, hfits, hhere, rfl⟩ | ⟨kind, htag, h⟩)
          · refine ⟨.scalar scalar, Nat.succ_pos _, ⟨hfits, trivial, hhere⟩, ?_⟩
            exact (hs.past_zero _).symm
          · obtain ⟨hdepth, total, v, hloop, rfl⟩ := container_eq_ok.mp h
            obtain ⟨wire, hrounds, hadmits, rfl, rfl⟩ :=
              (ihentries _ _ _ _ _ (hs.inside htag)).mp hloop
            rw [hs.under] at hdepth
            refine ⟨.node kind wire, Nat.succ_le_succ hrounds, ⟨hadmits.fits, ?_, ?_⟩, ?_⟩
            · refine ⟨by omega, fun l hl => ?_, ?_⟩
              · rcases Nat.eq_zero_or_pos wire.length with hnil | hpos
                · omega
                · have := hadmits.length_le hpos l hl
                  omega
              · rw [Nat.sub_sub]
                exact hadmits.within
            · exact (Tape.here_append s [kindTag kind] _).mpr ⟨htag, hadmits.here⟩
            · rw [leave_inside, Nat.zero_add, scanValue, List.length_cons, List.length_append]
              rfl
        · rintro ⟨wire, hrounds, hadmits, rfl⟩
          cases wire with
          | scalar scalar =>
              exact .inl ⟨scalar, hadmits.fits, hadmits.here, hs.past_zero _⟩
          | node kind wire =>
              obtain ⟨htag, hentries⟩ := (Tape.here_append s [kindTag kind] _).mp hadmits.here
              obtain ⟨hroom, hlimit, hwithin⟩ := hadmits.within
              refine .inr ⟨kind, htag, container_eq_ok.mpr ⟨by rw [hs.under]; omega, wire.length,
                _, (ihentries _ _ _ _ _ (hs.inside htag)).mpr ⟨wire, Nat.le_of_succ_le_succ hrounds,
                  ⟨hadmits.fits, ?_, fun _ l hl => ?_, hentries⟩, (Nat.zero_add _).symm, rfl⟩, ?_⟩⟩
              · rw [Nat.sub_sub] at hwithin
                exact hwithin
              · rw [Nat.zero_add]
                exact hlimit l hl
              · rw [leave_inside, scanValue, List.length_cons, List.length_append]
                rfl
      · intro s t kind passed total hs
        rw [entries_succ hs]
        constructor
        · rintro (⟨hend, rfl, rfl⟩ | ⟨-, hlimit, text, v, hfits, hkey, hvalue, hrest⟩)
          · refine ⟨.nil, Nat.succ_pos _, ⟨trivial, trivial, ?_, hend⟩, rfl, (hs.past_zero _).symm⟩
            simp [Forest.length]
          · obtain ⟨value, hrounds, hadmits, rfl⟩ :=
              (ihvalue _ _ _ (hs.advance hkey)).mp hvalue
            have hready := (hs.advance hkey).past hadmits.here value.containers value.elements
              value.height
            obtain ⟨rest, hrounds', hadmits', rfl, rfl⟩ := (ihentries _ _ _ _ _ hready).mp hrest
            refine ⟨.cons text value rest, ?_, ⟨⟨hfits, hadmits.fits, hadmits'.fits⟩,
              ⟨hadmits.within, hadmits'.within⟩, fun _ l hl => ?_, ?_⟩, ?_, ?_⟩
            · rw [Forest.rounds]
              omega
            · have hone := hlimit l hl
              rw [Forest.length]
              rcases Nat.eq_zero_or_pos rest.length with hnil | hpos
              · omega
              · have := hadmits'.length_le hpos l hl
                omega
            · rw [scanEntries, List.append_assoc, List.append_assoc]
              refine (Tape.here_append s _ _).mpr ⟨hkey, (Tape.here_append _ _ _).mpr
                ⟨hadmits.here, ?_⟩⟩
              exact hadmits'.here
            · rw [Forest.length]
              omega
            · rw [past_over, past_advance, scanEntries, List.length_append, List.length_append]
              simp only [Forest.containers, Forest.elements, Forest.height, Nat.add_assoc]
        · rintro ⟨wire, hrounds, hadmits, rfl, rfl⟩
          cases wire with
          | nil => exact .inl ⟨hadmits.here, rfl, hs.past_zero _⟩
          | cons text value rest =>
              have hlimit := hadmits.length_le (Nat.succ_pos _)
              obtain ⟨hkeyFits, hvalueFits, hrestFits⟩ := hadmits.fits
              obtain ⟨hvalueWithin, hrestWithin⟩ := hadmits.within
              have hhere := hadmits.here
              rw [scanEntries, List.append_assoc, List.append_assoc] at hhere
              obtain ⟨hkey, hhere⟩ := (Tape.here_append s _ _).mp hhere
              obtain ⟨hvalue, hrest⟩ := (Tape.here_append _ _ _).mp hhere
              rw [Forest.rounds] at hrounds
              have hready := (hs.advance hkey).past hvalue value.containers value.elements value.height
              refine .inr ⟨?_, fun l hl => ?_, text, _, hkeyFits, hkey,
                (ihvalue _ _ _ (hs.advance hkey)).mpr ⟨value, by omega,
                  ⟨hvalueFits, hvalueWithin, hvalue⟩, rfl⟩,
                (ihentries _ _ _ _ _ hready).mpr ⟨rest, by omega,
                  ⟨hrestFits, hrestWithin, fun _ l hl => ?_, hrest⟩, ?_, ?_⟩⟩
              · obtain ⟨byte, bs, hcons, hne⟩ := scanEntry_cons (c := c) text value
                refine ⟨byte, next_of_here ((Tape.here_append s (byte :: bs) []).mp ?_).1, hne⟩
                rw [← hcons, List.append_nil]
                exact (Tape.here_append s _ _).mpr ⟨hkey, hvalue⟩
              · have := hlimit l hl
                rw [Forest.length] at this
                omega
              · have := hlimit l hl
                rw [Forest.length] at this
                omega
              · rw [Forest.length]
                omega
              · rw [past_over, past_advance, scanEntries, List.length_append, List.length_append]
                simp only [Forest.containers, Forest.elements, Forest.height, Nat.add_assoc]

mutual

/-- A value has a byte for every round of the walker. -/
lemma rounds_le_value : ∀ wire : WireValue, wire.rounds ≤ (scanValue c wire).length
  | .scalar scalar => by
      obtain ⟨byte, bs, h, -⟩ := scanValue_cons (c := c) (.scalar scalar)
      rw [h, List.length_cons]
      exact Nat.succ_le_succ (Nat.zero_le _)
  | .node kind entries => by
      have h := rounds_le_entries entries
      rw [Tree.rounds, scanValue, List.length_cons, List.length_append, List.length_singleton]
      omega

lemma rounds_le_entries {kind : Kind} :
    ∀ entries : WireEntries kind, entries.rounds ≤ (scanEntries c entries).length + 1
  | .nil => Nat.succ_pos _
  | .cons key value rest => by
      have hvalue := rounds_le_value value
      have hrest := rounds_le_entries rest
      obtain ⟨byte, bs, h, -⟩ := scanValue_cons (c := c) value
      have hpos : 0 < (scanValue c value).length := by
        rw [h, List.length_cons]
        exact Nat.succ_pos _
      rw [Forest.rounds, scanEntries, List.length_append, List.length_append]
      omega

end

omit [Target] in
lemma ready_new (input : Input) (config : Config) : Ready config (new input config) :=
  ⟨rfl, Nat.le_refl _, slice_eq_some.mpr ⟨Nat.le_refl _, Nat.zero_le _, rfl⟩,
    fun _ _ => Nat.zero_le _⟩

end Walker

variable [Target]

open Walker in
/-- The probe accepts the values of the walker that the limits admit, and what it says of them is
what they are made of. -/
lemma probe_eq_ok {config : Config} {input : Input} {out : Probe} :
    probe config input = .ok out ↔ ∃ wire : WireValue, Admits config (Walker.new input config) wire ∧
      (config.trailing = .reject → (scanValue config wire).length = input.bytes.length) ∧
      out = ⟨(scanValue config wire).length, wire.containers, wire.elements, wire.height⟩ := by
  have hvalue := fun t => (value_eq_ok (c := config) (2 * input.bytes.length + 1)).1
    (Walker.new input config) t () (ready_new input config)
  have hpast : ∀ a b c d, (Walker.new input config).past a b c d =
      { Walker.new input config with cursor := a, containers := b, elements := c, maxDepth := d } := by
    intro a b c d
    simp [Walker.past, Walker.new]
  constructor
  · intro h
    rw [probe] at h
    rcases hrun : Walker.value (2 * input.bytes.length + 1) (Walker.new input config) with
      ⟨u | e | _ | _, t⟩ <;> rw [hrun] at h
    · obtain ⟨wire, -, hadmits, rfl⟩ := (hvalue t).mp hrun
      rw [hpast] at h
      dsimp only at h
      split_ifs at h with hreject
      cases h
      refine ⟨wire, hadmits, fun htrailing => ?_, rfl⟩
      by_contra hne
      exact hreject ⟨htrailing, hne⟩
    · cases h
    · cases h
    · cases h
  · rintro ⟨wire, hadmits, hreject, rfl⟩
    have hlen : (scanValue config wire).length ≤ input.bytes.length := by
      have hslice := (slice_eq_some.mp hadmits.here.1).2.1
      rwa [show (Walker.new input config).cursor = 0 from rfl, Nat.zero_add] at hslice
    have hrounds := rounds_le_value (c := config) wire
    rw [probe, (hvalue _).mpr ⟨wire, by omega, hadmits, rfl⟩, hpast]
    dsimp only
    rw [if_neg fun h => h.2 (hreject h.1)]

end RustBinary.Native
