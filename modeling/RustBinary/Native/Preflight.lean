import RustBinary.Native.Scan
import RustBinary.Native.RoundTrip

/-!
# The probe and the decoder

What the probe accepts is held against what the decoder reads.  In the standard profile the probe
goes over every value of the wire, whether its payloads decode or not; in the other profiles it goes
wrong where a number of several bytes is not little-endian, and at the strings of fixed lengths.
-/

namespace RustBinary.Native

open Lib Lib.Act

section Probe

variable [Target] {c : Config}

/-! ## One value for a text -/

lemma toBytes_inj {width n m : ℕ} {xs ys : List UInt8} (hn : n < 256 ^ width) (hm : m < 256 ^ width)
    (h : toBytes c width n ++ xs = toBytes c width m ++ ys) : n = m ∧ xs = ys := by
  obtain ⟨hbytes, hrest⟩ := List.append_inj h (by rw [length_toBytes, length_toBytes])
  refine ⟨?_, hrest⟩
  rw [← fromBytes_toBytes (c := c) hn, hbytes, fromBytes_toBytes hm]

lemma spellVarint_inj {n m : ℕ} {xs ys : List UInt8} (hn : n < 2 ^ 128) (hm : m < 2 ^ 128)
    (h : spellVarint c n ++ xs = spellVarint c m ++ ys) : n = m ∧ xs = ys := by
  have hmarked : ∀ {k : ℕ}, k < 2 ^ 128 →
      ∃ marker ks, Marked (toBytes c) marker k ks ∧ spellVarint c k = marker :: ks :=
    fun hk => marked_iff.mpr ⟨hk, rfl⟩
  obtain ⟨marker, ns, hns, heq⟩ := hmarked hn
  obtain ⟨marker', ms, hms, heq'⟩ := hmarked hm
  rw [heq, heq', List.cons_append, List.cons_append, List.cons.injEq] at h
  obtain ⟨rfl, h⟩ := h
  rcases marker_cases marker with hle | ⟨width, minimum, hform⟩ | rfl
  · obtain ⟨rfl, rfl⟩ := (marked_of_le hle).mp hns
    obtain ⟨rfl, rfl⟩ := (marked_of_le hle).mp hms
    exact ⟨rfl, h⟩
  · obtain ⟨-, hlt, rfl⟩ := (marked_of_wide hform).mp hns
    obtain ⟨-, hlt', rfl⟩ := (marked_of_wide hform).mp hms
    exact toBytes_inj hlt hlt' h
  · exact absurd hns not_marked_255

lemma spellInt_inj {width n m : ℕ} {xs ys : List UInt8} (hn : IsWord c width n)
    (hm : IsWord c width m) (h : spellInt c width n ++ xs = spellInt c width m ++ ys) :
    n = m ∧ xs = ys := by
  by_cases hvariable : c.integers = .variable ∧ 1 < width
  · rw [IsWord, if_pos hvariable] at hn hm
    rw [spellInt, spellInt, if_pos hvariable, if_pos hvariable] at h
    exact spellVarint_inj hn hm h
  · rw [IsWord, if_neg hvariable] at hn hm
    rw [spellInt, spellInt, if_neg hvariable, if_neg hvariable] at h
    exact toBytes_inj hn hm h

lemma spellStr_inj {as bs xs ys : List UInt8} (ha : as.length < 2 ^ 64) (hb : bs.length < 2 ^ 64)
    (h : spellStr c as ++ xs = spellStr c bs ++ ys) : as = bs ∧ xs = ys := by
  rw [spellStr, spellStr, List.append_assoc, List.append_assoc] at h
  obtain ⟨hlen, h⟩ := spellInt_inj (isWord_length ha) (isWord_length hb) h
  exact List.append_inj h hlen

lemma spellScalar_inj {a b : WireScalar} {xs ys : List UInt8} (ha : a.Fits c) (hb : b.Fits c)
    (h : a.spell c ++ xs = b.spell c ++ ys) : a = b ∧ xs = ys := by
  cases a with
  | null =>
      cases b with
      | null => exact ⟨rfl, (List.cons.inj h).2⟩
      | bool value => cases value <;> exact absurd (List.cons.inj h).1 (by decide)
      | int tag word => cases tag <;> exact absurd (List.cons.inj h).1 (by decide)
      | f64 | f32 | str => exact absurd (List.cons.inj h).1 (by decide)
  | bool value =>
      cases b with
      | null => cases value <;> exact absurd (List.cons.inj h).1 (by decide)
      | bool value' =>
          cases value <;> cases value' <;>
            first | exact ⟨rfl, (List.cons.inj h).2⟩ | exact absurd (List.cons.inj h).1 (by decide)
      | int tag word => cases value <;> cases tag <;> exact absurd (List.cons.inj h).1 (by decide)
      | f64 | f32 | str => cases value <;> exact absurd (List.cons.inj h).1 (by decide)
  | int tag word =>
      cases b with
      | null => cases tag <;> exact absurd (List.cons.inj h).1 (by decide)
      | bool value => cases tag <;> cases value <;> exact absurd (List.cons.inj h).1 (by decide)
      | int tag' word' =>
          obtain rfl : tag = tag' := by
            cases tag <;> cases tag' <;> first | rfl | exact absurd (List.cons.inj h).1 (by decide)
          obtain ⟨rfl, hrest⟩ := spellInt_inj ha hb (List.cons.inj h).2
          exact ⟨rfl, hrest⟩
      | f64 | f32 | str => cases tag <;> exact absurd (List.cons.inj h).1 (by decide)
  | f64 bits =>
      cases b with
      | null => exact absurd (List.cons.inj h).1 (by decide)
      | bool value => cases value <;> exact absurd (List.cons.inj h).1 (by decide)
      | int tag word => cases tag <;> exact absurd (List.cons.inj h).1 (by decide)
      | f64 bits' =>
          obtain ⟨rfl, hrest⟩ := toBytes_inj (ha.trans_eq (by norm_num))
            (hb.trans_eq (by norm_num)) (List.cons.inj h).2
          exact ⟨rfl, hrest⟩
      | f32 | str => exact absurd (List.cons.inj h).1 (by decide)
  | f32 bits =>
      cases b with
      | null => exact absurd (List.cons.inj h).1 (by decide)
      | bool value => cases value <;> exact absurd (List.cons.inj h).1 (by decide)
      | int tag word => cases tag <;> exact absurd (List.cons.inj h).1 (by decide)
      | f32 bits' =>
          obtain ⟨rfl, hrest⟩ := toBytes_inj (ha.trans_eq (by norm_num))
            (hb.trans_eq (by norm_num)) (List.cons.inj h).2
          exact ⟨rfl, hrest⟩
      | f64 | str => exact absurd (List.cons.inj h).1 (by decide)
  | str bytes =>
      cases b with
      | null => exact absurd (List.cons.inj h).1 (by decide)
      | bool value => cases value <;> exact absurd (List.cons.inj h).1 (by decide)
      | int tag word => cases tag <;> exact absurd (List.cons.inj h).1 (by decide)
      | str bytes' =>
          obtain ⟨rfl, hrest⟩ := spellStr_inj ha hb (List.cons.inj h).2
          exact ⟨rfl, hrest⟩
      | f64 | f32 => exact absurd (List.cons.inj h).1 (by decide)

lemma spellKey_inj {kind : Kind} {a b : KeyOf (List UInt8) kind} {xs ys : List UInt8}
    (ha : a.All fun key => key.length < 2 ^ 64) (hb : b.All fun key => key.length < 2 ^ 64)
    (h : spellKey c a ++ xs = spellKey c b ++ ys) : a = b ∧ xs = ys := by
  cases kind with
  | array => exact ⟨rfl, h⟩
  | object => exact spellStr_inj ha hb (List.cons.inj h).2

lemma spellScalar_ne_node {a : WireScalar} {kind : Kind} {xs ys : List UInt8} :
    a.spell c ++ xs ≠ kindTag kind :: ys := by
  intro h
  cases a with
  | bool value => cases kind <;> cases value <;> exact absurd (List.cons.inj h).1 (by decide)
  | int tag word => cases kind <;> cases tag <;> exact absurd (List.cons.inj h).1 (by decide)
  | null | f64 | f32 | str => cases kind <;> exact absurd (List.cons.inj h).1 (by decide)

mutual

/-- A text starts with one value at most. -/
lemma spellValue_inj : ∀ (a b : WireValue) {xs ys : List UInt8}, Fits c a → Fits c b →
    spellValue c a ++ xs = spellValue c b ++ ys → a = b ∧ xs = ys
  | .scalar a, .scalar b, xs, ys, ha, hb, h => by
      obtain ⟨rfl, hrest⟩ := spellScalar_inj ha hb h
      exact ⟨rfl, hrest⟩
  | .scalar a, .node kind entries, xs, ys, _, _, h => absurd h spellScalar_ne_node
  | .node kind entries, .scalar b, xs, ys, _, _, h => absurd h.symm spellScalar_ne_node
  | .node kind as, .node kind' bs, xs, ys, ha, hb, h => by
      obtain ⟨htag, hrest⟩ := List.cons.inj h
      obtain rfl : kind = kind' := by
        cases kind <;> cases kind' <;> first | rfl | exact absurd htag (by decide)
      have hentries : spellEntries c as ++ (tagEnd :: xs) = spellEntries c bs ++ (tagEnd :: ys) := by
        simpa using hrest
      obtain ⟨rfl, hend⟩ := spellEntries_inj as bs ha hb hentries
      exact ⟨rfl, hend⟩

lemma spellEntries_inj {kind : Kind} : ∀ (as bs : WireEntries kind) {xs ys : List UInt8},
    as.All (WireScalar.Fits c) (fun key => key.length < 2 ^ 64) →
    bs.All (WireScalar.Fits c) (fun key => key.length < 2 ^ 64) →
    spellEntries c as ++ (tagEnd :: xs) = spellEntries c bs ++ (tagEnd :: ys) → as = bs ∧ xs = ys
  | .nil, .nil, xs, ys, _, _, h => ⟨rfl, (List.cons.inj h).2⟩
  | .nil, .cons key value rest, xs, ys, _, _, h => by
      obtain ⟨byte, bs, hcons, hne⟩ := spellEntry_cons (c := c) key value
      rw [spellEntries, spellEntries, ← List.append_assoc, hcons] at h
      exact absurd (List.cons.inj h).1.symm hne
  | .cons key value rest, .nil, xs, ys, _, _, h => by
      obtain ⟨byte, bs, hcons, hne⟩ := spellEntry_cons (c := c) key value
      rw [spellEntries, spellEntries, ← List.append_assoc, hcons] at h
      exact absurd (List.cons.inj h).1 hne
  | .cons key value rest, .cons key' value' rest', xs, ys, ha, hb, h => by
      rw [spellEntries, spellEntries, List.append_assoc, List.append_assoc, List.append_assoc,
        List.append_assoc] at h
      obtain ⟨rfl, h₁⟩ := spellKey_inj ha.1 hb.1 h
      obtain ⟨rfl, h₂⟩ := spellValue_inj value value' ha.2.1 hb.2.1 h₁
      obtain ⟨rfl, h₃⟩ := spellEntries_inj rest rest' ha.2.2 hb.2.2 h₂
      exact ⟨rfl, h₃⟩

end

/-! ## What is decoded -/

/-- A value of the wire that an input starts with, within the limits; nothing comes behind it if
trailing bytes are rejected. -/
structure Starts (c : Config) (input : Input) (wire : WireValue) : Prop where
  fits : Fits c wire
  within : wire.Within c.collectionLimit c.depthLimit
  here : Tape.Here (Decoder.new input c) (spellValue c wire)
  trailing : c.trailing = .reject → (spellValue c wire).length = input.bytes.length

/-- The decoder reads one complete value, token by token, from the first `consumed` bytes, and does
not object to what follows. -/
def Decodes (c : Config) (input : Input) (value : Tree Token String) (consumed : ℕ) : Prop :=
  (∃ n t, Decoder.readValue n (Decoder.new input c) = (.ok value, t) ∧ t.cursor = consumed) ∧
    (c.trailing = .reject → consumed = input.bytes.length)

lemma decodes_iff {input : Input} {value : Tree Token String} {consumed : ℕ} :
    Decodes c input value consumed ↔ ∃ wire, Starts c input wire ∧
      decodeValue c wire = some value ∧ consumed = (spellValue c wire).length := by
  have hafter : ∀ n, (after (Decoder.new input c) n).cursor = n := fun n => Nat.zero_add n
  constructor
  · rintro ⟨⟨n, t, hread, rfl⟩, htrailing⟩
    obtain ⟨wire, hfits, hdecode, hwithin, hhere, rfl⟩ := readValue_new_iff.mp ⟨n, hread⟩
    rw [hafter] at htrailing ⊢
    exact ⟨wire, ⟨hfits, hwithin, hhere, htrailing⟩, hdecode, rfl⟩
  · rintro ⟨wire, hstarts, hdecode, rfl⟩
    obtain ⟨n, hread⟩ := readValue_new_iff.mpr
      ⟨wire, hstarts.fits, hdecode, hstarts.within, hstarts.here, rfl⟩
    exact ⟨⟨n, _, hread, hafter _⟩, hstarts.trailing⟩

/-- An input starts with one value at most. -/
lemma Starts.eq {input : Input} {a b : WireValue} (ha : Starts c input a) (hb : Starts c input b) :
    a = b := by
  have hsplit : ∀ {wire}, Starts c input wire → spellValue c wire ++
      input.bytes.drop (spellValue c wire).length = input.bytes := by
    intro wire h
    obtain ⟨-, -, heq⟩ := slice_eq_some.mp h.here.1
    rw [show (Decoder.new input c).cursor = 0 from rfl, Nat.zero_add, Nat.sub_zero] at heq
    have htake : input.bytes.take (spellValue c wire).length = spellValue c wire := heq
    exact (congrArg (· ++ _) htake.symm).trans (List.take_append_drop _ _)
  exact (spellValue_inj a b ha.fits hb.fits ((hsplit ha).trans (hsplit hb).symm)).1

/-! ## Values that the walker takes as they are -/

open Walker (little scanText scanScalar scanKey scanValue scanEntries TextFits ScalarFits Admits)

omit [Target] in
lemma integers_eq_of_ne (h : c.integers ≠ .fixed) : c.integers = .variable := by
  rcases hc : c.integers with _ | _
  · exact absurd hc h
  · rfl

/-- A string that the walker measures: its length is a varint, and one that looks the same in both
byte orders. -/
def PlainText (c : Config) (bytes : List UInt8) : Prop :=
  c.integers = .variable ∧ (c.endian.isLittle = true ∨ bytes.length ≤ 250)

/-- A scalar that the walker measures. -/
def PlainScalar (c : Config) : WireScalar → Prop
  | .int _ word => c.integers = .fixed ∨ c.endian.isLittle = true ∨ word ≤ 250
  | .str bytes => PlainText c bytes
  | _ => True

/-- The number that the bytes of a number spell in little-endian order. -/
def turned (c : Config) (width word : ℕ) : ℕ :=
  Decoder.fromBytes (little c) (toBytes c width word)

/-- What a scalar looks like to the walker. -/
def mirror (c : Config) : WireScalar → WireScalar
  | .int tag word => .int tag (if c.integers = .fixed then turned c tag.width word else word)
  | .f64 bits => .f64 (turned c 8 bits)
  | .f32 bits => .f32 (turned c 4 bits)
  | scalar => scalar

lemma turned_lt (width word : ℕ) : turned c width word < 256 ^ width := by
  have hlt := fromBytes_lt (little c) (toBytes c width word)
  rwa [length_toBytes] at hlt

lemma toBytes_turned (width word : ℕ) :
    toBytes (little c) width (turned c width word) = toBytes c width word := by
  have hbytes := toBytes_fromBytes (little c) (toBytes c width word)
  rwa [length_toBytes] at hbytes

lemma toBytes_little (h : c.endian.isLittle = true) (width n : ℕ) :
    toBytes (little c) width n = toBytes c width n := by
  rw [toBytes, toBytes, if_pos h]
  rfl

/-- Numbers in little-endian order and numbers of one byte look the same to the walker. -/
lemma spellVarint_little {n : ℕ} (h : c.endian.isLittle = true ∨ n ≤ 250) :
    spellVarint (little c) n = spellVarint c n := by
  rcases h with h | h
  · simp only [spellVarint, toBytes_little h]
  · rw [spellVarint, spellVarint, if_pos h, if_pos h]

lemma scanText_plain {bytes : List UInt8} (h : PlainText c bytes) :
    scanText c bytes = spellStr c bytes := by
  have hint : ∀ c' : Config, c'.integers = .variable → ∀ n, spellInt c' 8 n = spellVarint c' n :=
    fun c' h' n => if_pos ⟨h', by decide⟩
  rw [scanText, if_pos h.1, spellStr, spellStr, hint _ h.1, hint (little c) h.1,
    spellVarint_little h.2]

lemma textFits_plain {bytes : List UInt8} (h : PlainText c bytes) (hfits : bytes.length < 2 ^ 64) :
    TextFits c bytes := by
  rw [TextFits, if_pos h.1]
  exact hfits

lemma scanScalar_mirror {scalar : WireScalar} (h : PlainScalar c scalar) (hfits : scalar.Fits c) :
    scanScalar c (mirror c scalar) = scalar.spell c ∧ ScalarFits c (mirror c scalar) := by
  cases scalar with
  | null => exact ⟨rfl, trivial⟩
  | bool value => cases value <;> exact ⟨rfl, trivial⟩
  | int tag word =>
      by_cases hfixed : c.integers = .fixed
      · have hnot : ∀ c' : Config, c'.integers = .fixed →
            ¬ (c'.integers = .variable ∧ 1 < tag.width) := fun c' h' h => by simp [h'] at h
        rw [mirror, if_pos hfixed]
        refine ⟨congrArg (tag.tag :: ·) ?_, ?_⟩
        · rw [spellInt, spellInt, if_neg (hnot _ hfixed), if_neg (hnot (little c) hfixed)]
          exact toBytes_turned _ _
        · change IsWord c tag.width _
          rw [IsWord, if_neg (hnot _ hfixed)]
          exact turned_lt _ _
      · rw [mirror, if_neg hfixed]
        refine ⟨congrArg (tag.tag :: ·) ?_, hfits⟩
        have hvariable := integers_eq_of_ne hfixed
        have hwidth : 1 < tag.width := by cases tag <;> decide
        have hlittle : (little c).integers = .variable ∧ 1 < tag.width := ⟨hvariable, hwidth⟩
        rw [spellInt, spellInt, if_pos hlittle, if_pos ⟨hvariable, hwidth⟩]
        exact spellVarint_little (h.resolve_left hfixed)
  | f64 bits =>
      exact ⟨congrArg (tagF64 :: ·) (toBytes_turned 8 bits),
        (turned_lt 8 bits).trans_eq (by norm_num)⟩
  | f32 bits =>
      exact ⟨congrArg (tagF32 :: ·) (toBytes_turned 4 bits),
        (turned_lt 4 bits).trans_eq (by norm_num)⟩
  | str bytes =>
      exact ⟨congrArg (tagString :: ·) (scanText_plain h), textFits_plain h hfits⟩

lemma scanKey_plain {kind : Kind} {key : KeyOf (List UInt8) kind} (h : key.All (PlainText c))
    (hfits : key.All fun key => key.length < 2 ^ 64) :
    scanKey c (key.map id) = spellKey c key ∧ (key.map id).All (TextFits c) := by
  cases kind with
  | array => exact ⟨rfl, trivial⟩
  | object => exact ⟨congrArg (tagString :: ·) (scanText_plain h), textFits_plain h hfits⟩

/-- A value whose numbers and strings the walker measures. -/
def Plain (c : Config) (wire : WireValue) : Prop := wire.All (PlainScalar c) (PlainText c)

mutual

/-- What such a value looks like to the walker. -/
lemma scanValue_mirror : ∀ wire : WireValue, Plain c wire → Fits c wire →
    scanValue c (wire.map (mirror c) id) = spellValue c wire ∧
      (wire.map (mirror c) id).All (ScalarFits c) (TextFits c)
  | .scalar scalar, h, hfits => by
      rw [Lib.Tree.map, scanValue, spellValue]
      exact scanScalar_mirror h hfits
  | .node kind entries, h, hfits => by
      obtain ⟨hscan, hall⟩ := scanEntries_mirror entries h hfits
      rw [Lib.Tree.map, scanValue, spellValue, hscan]
      exact ⟨rfl, hall⟩

lemma scanEntries_mirror {kind : Kind} : ∀ entries : WireEntries kind,
    entries.All (PlainScalar c) (PlainText c) →
    entries.All (WireScalar.Fits c) (fun key => key.length < 2 ^ 64) →
    scanEntries c (entries.map (mirror c) id) = spellEntries c entries ∧
      (entries.map (mirror c) id).All (ScalarFits c) (TextFits c)
  | .nil, _, _ => ⟨rfl, trivial⟩
  | .cons key value rest, h, hfits => by
      obtain ⟨hkey, hkeyFits⟩ := scanKey_plain h.1 hfits.1
      obtain ⟨hvalue, hvalueFits⟩ := scanValue_mirror value h.2.1 hfits.2.1
      obtain ⟨hrest, hrestFits⟩ := scanEntries_mirror rest h.2.2 hfits.2.2
      rw [Forest.map, scanEntries, spellEntries, hkey, hvalue, hrest]
      exact ⟨rfl, hkeyFits, hvalueFits, hrestFits⟩

end

/-- The walker goes over the bytes of such a value. -/
lemma Starts.admits {input : Input} {wire : WireValue} (h : Starts c input wire)
    (hplain : Plain c wire) :
    ∃ wire', Admits c (Walker.new input c) wire' ∧ scanValue c wire' = spellValue c wire := by
  obtain ⟨hscan, hfits⟩ := scanValue_mirror wire hplain h.fits
  refine ⟨_, ⟨hfits, (Tree.within_map _ _ _ _ _).mpr h.within, ?_⟩, hscan⟩
  rw [hscan]
  exact h.here

/-! ## The probe and the decoder -/

/-- What the probe says of a value that the input starts with. -/
lemma Starts.probe {input : Input} {wire wire' : WireValue} (h : Starts c input wire)
    (hadmits : Admits c (Walker.new input c) wire')
    (hlen : (scanValue c wire').length = (spellValue c wire).length) :
    ∃ out, probe c input = .ok out ∧ out.bytes = (spellValue c wire).length := by
  refine ⟨_, probe_eq_ok.mpr ⟨wire', hadmits, fun htrailing => ?_, rfl⟩, hlen⟩
  rw [hlen]
  exact h.trailing htrailing

/-- The probe measures what the decoder reads exactly when these bytes are a value for the walker
too, as they are if the walker measures its numbers and strings. -/
theorem probe_complete_iff (c : Config) (input : Input) :
    ((∀ value consumed, Decodes c input value consumed →
        ∃ out, probe c input = .ok out ∧ out.bytes = consumed) ↔
      ∀ wire, Starts c input wire → (decodeValue c wire).isSome →
        ∃ wire', Admits c (Walker.new input c) wire' ∧
          (scanValue c wire').length = (spellValue c wire).length) ∧
      ∀ wire, Starts c input wire → Plain c wire →
        ∃ out, probe c input = .ok out ∧ out.bytes = (spellValue c wire).length := by
  refine ⟨⟨fun h wire hstarts hdecode => ?_, fun h value consumed hdecodes => ?_⟩,
    fun wire hstarts hplain => ?_⟩
  · obtain ⟨value, hvalue⟩ := Option.isSome_iff_exists.mp hdecode
    obtain ⟨out, hprobe, hbytes⟩ := h value _ (decodes_iff.mpr ⟨wire, hstarts, hvalue, rfl⟩)
    obtain ⟨wire', hadmits, -, rfl⟩ := probe_eq_ok.mp hprobe
    exact ⟨wire', hadmits, hbytes⟩
  · obtain ⟨wire, hstarts, hvalue, rfl⟩ := decodes_iff.mp hdecodes
    obtain ⟨wire', hadmits, hlen⟩ := h wire hstarts (by rw [hvalue]; rfl)
    exact hstarts.probe hadmits hlen
  · obtain ⟨wire', hadmits, hscan⟩ := hstarts.admits hplain
    exact hstarts.probe hadmits (congrArg List.length hscan)

section Standard

variable (hlittle : c.endian.isLittle = true) (hvariable : c.integers = .variable)

include hlittle hvariable

lemma scanScalar_standard (scalar : WireScalar) : scanScalar c scalar = scalar.spell c := by
  cases scalar with
  | null => rfl
  | bool value => cases value <;> rfl
  | int tag word =>
      have hwidth : 1 < tag.width := by cases tag <;> decide
      have h : (little c).integers = .variable ∧ 1 < tag.width := ⟨hvariable, hwidth⟩
      refine congrArg (tag.tag :: ·) ?_
      rw [spellInt, spellInt, if_pos h, if_pos ⟨hvariable, hwidth⟩]
      exact spellVarint_little (.inl hlittle)
  | f64 bits => exact congrArg (tagF64 :: ·) (toBytes_little hlittle 8 bits)
  | f32 bits => exact congrArg (tagF32 :: ·) (toBytes_little hlittle 4 bits)
  | str bytes => exact congrArg (tagString :: ·) (scanText_plain ⟨hvariable, .inl hlittle⟩)

lemma scanKey_standard {kind : Kind} (key : KeyOf (List UInt8) kind) :
    scanKey c key = spellKey c key := by
  cases kind with
  | array => rfl
  | object => exact congrArg (tagString :: ·) (scanText_plain ⟨hvariable, .inl hlittle⟩)

mutual

/-- In the standard profile the values of the walker are those of the wire. -/
lemma scanValue_standard : ∀ wire : WireValue, scanValue c wire = spellValue c wire
  | .scalar scalar => by
      rw [scanValue, spellValue]
      exact scanScalar_standard hlittle hvariable scalar
  | .node kind entries => by
      rw [scanValue, spellValue, scanEntries_standard entries]

lemma scanEntries_standard {kind : Kind} :
    ∀ entries : WireEntries kind, scanEntries c entries = spellEntries c entries
  | .nil => rfl
  | .cons key value rest => by
      rw [scanEntries, spellEntries, scanKey_standard hlittle hvariable, scanValue_standard value,
        scanEntries_standard rest]

end

omit [Target] hlittle in
lemma fits_standard : (ScalarFits c = WireScalar.Fits c) ∧
    TextFits c = fun bytes => bytes.length < 2 ^ 64 := by
  have htext : TextFits c = fun bytes => bytes.length < 2 ^ 64 := by
    funext bytes
    rw [TextFits, if_pos hvariable]
  refine ⟨funext fun scalar => ?_, htext⟩
  cases scalar with
  | str bytes => exact congrFun htext bytes
  | null | bool | int | f64 | f32 => rfl

lemma admits_iff_standard {input : Input} {wire : WireValue} :
    Admits c (Walker.new input c) wire ∧
        (c.trailing = .reject → (scanValue c wire).length = input.bytes.length) ↔
      Starts c input wire := by
  have hscan := scanValue_standard hlittle hvariable wire
  obtain ⟨hscalar, htext⟩ := fits_standard hvariable
  constructor
  · rintro ⟨⟨hfits, hwithin, hhere⟩, htrailing⟩
    rw [hscan] at hhere htrailing
    rw [hscalar, htext] at hfits
    exact ⟨hfits, hwithin, hhere, htrailing⟩
  · rintro ⟨hfits, hwithin, hhere, htrailing⟩
    rw [hscan]
    refine ⟨⟨?_, hwithin, ?_⟩, htrailing⟩
    · rw [hscalar, htext]
      exact hfits
    · rw [hscan]
      exact hhere

/-- In the standard profile the probe goes over every value of the wire: the decoder reads what it
accepts exactly if the payloads decode. -/
theorem probe_sound_iff (input : Input) :
    (∀ out, probe c input = .ok out → ∃ value, Decodes c input value out.bytes) ↔
      ∀ wire, Starts c input wire → (decodeValue c wire).isSome := by
  have hscan := scanValue_standard hlittle hvariable
  constructor
  · intro h wire hstarts
    obtain ⟨hadmits, htrailing⟩ := (admits_iff_standard hlittle hvariable).mpr hstarts
    obtain ⟨value, hdecodes⟩ := h _ (probe_eq_ok.mpr ⟨wire, hadmits, htrailing, rfl⟩)
    obtain ⟨wire', hstarts', hvalue, -⟩ := decodes_iff.mp hdecodes
    rw [hstarts.eq hstarts', hvalue]
    rfl
  · intro h out hprobe
    obtain ⟨wire, hadmits, htrailing, rfl⟩ := probe_eq_ok.mp hprobe
    have hstarts := (admits_iff_standard hlittle hvariable).mp ⟨hadmits, htrailing⟩
    obtain ⟨value, hvalue⟩ := Option.isSome_iff_exists.mp (h wire hstarts)
    exact ⟨value, decodes_iff.mpr ⟨wire, hstarts, hvalue, congrArg List.length (hscan wire)⟩⟩

/-- What the probe says of a value of the wire is what the value is made of. -/
lemma probe_spelled {wire : WireValue} {input : Input} {rest : List UInt8} {out : Probe}
    (hfits : Fits c wire) (hinput : input.bytes = spellValue c wire ++ rest)
    (h : probe c input = .ok out) :
    out = ⟨(spellValue c wire).length, wire.containers, wire.elements, wire.height⟩ ∧
      out.depth ≤ c.depthLimit := by
  obtain ⟨wire', hadmits, htrailing, rfl⟩ := probe_eq_ok.mp h
  have hscan := scanValue_standard hlittle hvariable wire'
  have hstarts := (admits_iff_standard hlittle hvariable).mp ⟨hadmits, htrailing⟩
  obtain ⟨rest', hrest⟩ : spellValue c wire' <+: input.bytes := by
    have hslice := slice_eq_some.mp hstarts.here.1
    rw [← hslice.2.2]
    exact List.take_prefix _ input.bytes
  obtain ⟨rfl, -⟩ := spellValue_inj wire wire' hfits hstarts.fits (by rw [← hinput, ← hrest])
  rw [hscan]
  exact ⟨rfl, Tree.height_le wire hstarts.within⟩

/-- **Exact metrics.** In the profile of little-endian variable integers, a probe that accepts the
encoding of a value has counted its bytes, its containers, their entries and their nesting, which
the depth limit bounds: of every value as it is spelled on the wire, and of every tree that an
encoder of the profile has written. -/
theorem probe_metrics (input : Input) (rest : List UInt8) (out : Probe)
    (h : probe c input = .ok out) :
    (∀ wire, Fits c wire → input.bytes = spellValue c wire ++ rest →
      out = ⟨(spellValue c wire).length, wire.containers, wire.elements, wire.height⟩ ∧
        out.depth ≤ c.depthLimit) ∧
    ∀ (tree : Tree Scalar String) (s : Encoder),
      Encoder.writeValue tree (Encoder.new c) = (.ok (), s) → input.bytes = s.writer ++ rest →
      out = ⟨s.writer.length, tree.containers, tree.elements, tree.height⟩ ∧
        out.depth ≤ c.depthLimit := by
  refine ⟨fun wire hfits hinput => probe_spelled hlittle hvariable hfits hinput h,
    fun tree s hwrite hinput => ?_⟩
  obtain ⟨rfl, -, hfits, -⟩ := writeValue_ok tree (inBounds_new c) (cleared_new c) hwrite
  have hwriter : (wrote (Encoder.new c) (spellValue c (wireOf c tree))).writer
      = spellValue c (wireOf c tree) := rfl
  rw [hwriter] at hinput ⊢
  have hmetrics := probe_spelled hlittle hvariable hfits hinput h
  rw [wireOf, Tree.containers_map, Tree.elements_map, Tree.height_map] at hmetrics
  exact hmetrics

end Standard

end Probe

section Samples

local instance probeTarget : Target := ⟨true⟩

/-- A string of one byte, which is not text. -/
def notText : Input := ⟨[tagString, 1, 0xff], by decide⟩

lemma starts_notText : Starts .standard notText (.scalar (.str [0xff])) where
  fits := show [0xff].length < 2 ^ 64 by decide
  within := trivial
  here := ⟨rfl, by rintro l ⟨⟩; decide⟩
  trailing := fun _ => rfl

lemma probe_notText : probe .standard notText = .ok ⟨3, 0, 0, 0⟩ := by decide

theorem probe_accepts_notText :
    ¬ ∀ input out, probe .standard input = .ok out →
      ∃ value, Decodes .standard input value out.bytes := by
  intro h
  obtain ⟨value, hdecodes⟩ := h notText _ probe_notText
  obtain ⟨wire, hstarts, hvalue, -⟩ := decodes_iff.mp hdecodes
  obtain rfl := hstarts.eq starts_notText
  cases hvalue

theorem probe_sound_iff_null :
    ∃ value, Decodes .standard ⟨[tagNull], by decide⟩ value 1 := by
  refine (probe_sound_iff rfl rfl _).mpr (fun wire hstarts => ?_) ⟨1, 0, 0, 0⟩ (by decide)
  have hnull : Starts .standard ⟨[tagNull], by decide⟩ (.scalar .null) :=
    ⟨trivial, trivial, ⟨rfl, by rintro l ⟨⟩; decide⟩, fun _ => rfl⟩
  rw [hstarts.eq hnull]
  rfl

/-- The array `[null]`. -/
def nullArray : WireValue := .node .array (.cons () (.scalar .null) .nil)

theorem probe_metrics_nullArray :
    probe .standard ⟨[tagArray, tagNull, tagEnd], by decide⟩ = .ok ⟨3, 1, 1, 1⟩ ∧
      (⟨3, 1, 1, 1⟩ : Probe) = ⟨(spellValue .standard nullArray).length, nullArray.containers,
        nullArray.elements, nullArray.height⟩ := by
  have h : probe .standard ⟨[tagArray, tagNull, tagEnd], by decide⟩ = .ok ⟨3, 1, 1, 1⟩ := by decide
  exact ⟨h, ((probe_metrics rfl rfl _ [] _ h).1 nullArray ⟨trivial, trivial, trivial⟩ rfl).1⟩

/-- A string under a length of eight bytes. -/
def fixedText : Input := ⟨[tagString, 1, 0, 0, 0, 0, 0, 0, 0, 97], by decide⟩

lemma starts_fixedText : Starts .legacy fixedText (.scalar (.str [97])) where
  fits := show [97].length < 2 ^ 64 by decide
  within := trivial
  here := ⟨rfl, by rintro l ⟨⟩⟩
  trailing := by rintro ⟨⟩

lemma probe_fixedText : probe .legacy fixedText = .ok ⟨9, 0, 0, 0⟩ := by decide

theorem probe_misses_fixedText :
    ¬ ∀ (c : Config) input value consumed, Decodes c input value consumed →
      ∃ out, probe c input = .ok out ∧ out.bytes = consumed := by
  intro h
  have htext : fromUtf8 [97] = some "a" := fromUtf8_eq_some.mpr (by decide)
  have hvalue : decodeValue .legacy (.scalar (.str [97])) = some (.scalar (.str "a")) := by
    rw [decodeValue, Tree.mapOption, WireScalar.token, htext]
    rfl
  obtain ⟨out, hprobe, hbytes⟩ := h .legacy fixedText (.scalar (.str "a")) 10
    (decodes_iff.mpr ⟨_, starts_fixedText, hvalue, rfl⟩)
  rw [probe_fixedText] at hprobe
  cases hprobe
  exact absurd hbytes (by decide)

end Samples

end RustBinary.Native
