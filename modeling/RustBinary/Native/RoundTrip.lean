import RustBinary.Native.Encoder
import RustBinary.Native.Value

/-!
# Reading what was written

What the encoder writes is spelled as the wire spells values, within the limits of its
configuration; so the decoder of that configuration reads it back.
-/

namespace RustBinary.Native

open Lib Lib.Act

variable [Target] {c : Config}

/-! ## Integers -/

/-- The word of a signed integer under its tag. -/
def wordOf (c : Config) (width : ℕ) (value : ℤ) : ℕ :=
  if c.integers = .variable ∧ 1 < width then zigzagEncode value
  else Encoder.word128 value % 256 ^ width

/-- The byte that extends the sign of a word tells the upper half from the lower one. -/
lemma signFill_toBytes {width n : ℕ} (h : n < 256 ^ (width + 1)) :
    Decoder.signFill c (toBytes c (width + 1) n) = if 128 * 256 ^ width ≤ n then 0xff else 0 := by
  have htop : (UInt8.ofNat (n / 256 ^ width)).toNat = n / 256 ^ width := by
    rw [UInt8.toNat_ofNat']
    refine Nat.mod_eq_of_lt (Nat.div_lt_of_lt_mul ?_)
    rw [pow_succ] at h
    exact h
  have hlast : (if c.endian.isLittle then (toBytes c (width + 1) n).getLast?
      else (toBytes c (width + 1) n).head?) = some (UInt8.ofNat (n / 256 ^ width)) := by
    rw [toBytes]
    split
    · rw [leBytes_succ, List.getLast?_concat]
    · rw [beBytes, List.head?_reverse, leBytes_succ, List.getLast?_concat]
  rw [Decoder.signFill, hlast]
  dsimp only
  rw [htop]
  have hpos : 0 < 256 ^ width := Nat.pow_pos (by decide)
  by_cases hn : 128 * 256 ^ width ≤ n
  · rw [if_pos hn, if_pos ((Nat.le_div_iff_mul_le hpos).mpr hn)]
  · rw [if_neg hn, if_neg fun hle => hn ((Nat.le_div_iff_mul_le hpos).mp hle)]

lemma widen_toBytes {width n : ℕ} (h : n < 256 ^ width) (fill : UInt8) :
    Decoder.widen c fill (toBytes c width n)
      = n + 256 ^ width * leNat (List.replicate (16 - width) fill) := by
  rw [Decoder.widen, length_toBytes, toBytes]
  split
  · rw [leNat_append, leNat_leBytes h, length_leBytes]
  · rw [beNat, List.reverse_append, List.reverse_replicate, beBytes, List.reverse_reverse,
      leNat_append, leNat_leBytes h, length_leBytes]

/-- A signed integer of 64 bits comes back. -/
lemma signedWord_64 {z : ℤ} (hlow : -2 ^ 63 ≤ z) (hhigh : z < 2 ^ 63) :
    IsWord c 8 (wordOf c 8 z) ∧ signedWord c 8 (wordOf c 8 z) = z := by
  rw [IsWord, wordOf, signedWord]
  by_cases h : c.integers = .variable ∧ 1 < 8
  · rw [if_pos h, if_pos h, if_pos h]
    exact zigzagDecode_zigzagEncode (by omega) (by omega)
  · rw [if_neg h, if_neg h, if_neg h]
    obtain ⟨n, hn⟩ : ∃ n, n = Encoder.word128 z % 256 ^ 8 := ⟨_, rfl⟩
    have hlt : n < 256 ^ (7 + 1) := by
      rw [hn]
      exact Nat.mod_lt _ (by decide)
    rw [← hn]
    refine ⟨hlt, ?_⟩
    have hmax := leNat_replicate_max 8
    rw [signFill_toBytes hlt, widen_toBytes hlt]
    rw [Encoder.word128] at hn
    split
    · rw [show (16 - (7 + 1)) = 8 by rfl, asI128, if_neg (by omega)]
      omega
    · rw [leNat_replicate_zero, asI128, if_pos (by omega)]
      omega

/-- A signed integer of 128 bits comes back. -/
lemma signedWord_128 {z : ℤ} (hlow : -2 ^ 127 ≤ z) (hhigh : z < 2 ^ 127) :
    IsWord c 16 (wordOf c 16 z) ∧ signedWord c 16 (wordOf c 16 z) = z := by
  rw [IsWord, wordOf, signedWord]
  by_cases h : c.integers = .variable ∧ 1 < 16
  · rw [if_pos h, if_pos h, if_pos h]
    exact zigzagDecode_zigzagEncode hlow hhigh
  · rw [if_neg h, if_neg h, if_neg h]
    obtain ⟨n, hn⟩ : ∃ n, n = Encoder.word128 z % 256 ^ 16 := ⟨_, rfl⟩
    have hlt : n < 256 ^ (15 + 1) := by
      rw [hn]
      exact Nat.mod_lt _ (by decide)
    rw [← hn]
    refine ⟨hlt, ?_⟩
    rw [widen_toBytes hlt]
    rw [Encoder.word128] at hn
    rw [show 16 - (15 + 1) = 0 by rfl, List.replicate_zero, leNat, asI128]
    split <;> omega

/-! ## Scalars -/

namespace Scalar

/-- A scalar on the wire. -/
def wire (c : Config) : Scalar → WireScalar
  | null => .null
  | bool value => .bool value
  | u64 value _ => .int .u64 value
  | u128 value _ => .int .u128 value
  | i64 value _ _ => .int .i64 (wordOf c 8 value)
  | i128 value _ _ => .int .i128 (wordOf c 16 value)
  | f64 bits _ => .f64 bits
  | f32 bits _ => .f32 bits
  | str value => .str (toUtf8 value)
  | char value => .str (toUtf8 (String.singleton value))

/-- What is read back: an `f32` has been widened, a character is a string of one. -/
def token : Scalar → Token
  | null => .null
  | bool value => .bool value
  | u64 value _ => .number (.u64 value)
  | u128 value _ => .number (.u128 value)
  | i64 value _ _ => .number (.i64 value)
  | i128 value _ _ => .number (.i128 value)
  | f64 bits _ => .number (.f64 bits)
  | f32 bits _ => .number (.f64 (f32ToF64 bits))
  | str value => .str value
  | char value => .str (String.singleton value)

lemma token_wire (value : Scalar) : (value.wire c).token c = some value.token := by
  cases value with
  | null | bool | f64 | f32 => rfl
  | u64 value fits =>
      rw [wire, WireScalar.token, IntTag.number, if_pos (by omega), Option.map_some, token]
  | u128 value fits =>
      rw [wire, WireScalar.token, IntTag.number, if_pos (by omega), Option.map_some, token]
  | i64 value low high =>
      rw [wire, WireScalar.token, IntTag.number, (signedWord_64 low high).2,
        if_pos ⟨low, by omega⟩, Option.map_some, token]
  | i128 value low high =>
      rw [wire, WireScalar.token, IntTag.number, (signedWord_128 low high).2,
        if_pos ⟨low, by omega⟩, Option.map_some, token]
  | str | char => rw [wire, WireScalar.token, fromUtf8_toUtf8, Option.map_some, token]

end Scalar

/-! ## What each method writes -/

/-- The encoder after writing `bs`. -/
def wrote (s : Encoder) (bs : List UInt8) : Encoder :=
  { s with writer := s.writer ++ bs, written := s.written + bs.length }

/-- The bytes that the encoder has written are counted, and within the limit. -/
structure InBounds (c : Config) (s : Encoder) : Prop where
  config_eq : s.config = c
  written_eq : s.written = s.writer.length
  le_max : s.written ≤ u64Max
  le_limit : ∀ l, c.limit = some l → s.written ≤ l

/-- A successful `m` has written `bs`, which has the property `P`. -/
def Writes (c : Config) (m : Enc Unit) (bs : List UInt8) (P : Prop) : Prop :=
  ∀ s t u, InBounds c s → m s = (.ok u, t) → t = wrote s bs ∧ InBounds c t ∧ P

omit [Target] in
lemma encoder_orFail_eq_ok {α : Type} {m : Act Encoder Error α} {s t : Encoder} {a : α} :
    Encoder.orFail m s = (.ok a, t) ↔ m s = (.ok a, t) := by
  rw [Encoder.orFail, onErr]
  rcases m s with ⟨_ | _ | _ | _, u⟩ <;> simp [Encoder.fail]

/-- The counter and the limit leave room for `count` more bytes. -/
def HasRoom (s : Encoder) (count : ℕ) : Prop :=
  s.written + count ≤ u64Max ∧ ∀ l, s.config.limit = some l → s.written + count ≤ l

omit [Target] in
/-- Bytes are written where there is room for them. -/
lemma emit_eq_ok {bs : List UInt8} {s t : Encoder} {u : Unit} :
    Encoder.orFail (Encoder.emit bs) s = (.ok u, t) ↔ HasRoom s bs.length ∧ t = wrote s bs := by
  rw [encoder_orFail_eq_ok, Encoder.emit, get_bind_run, bind_eq_ok]
  constructor
  · rintro ⟨next, s₁, hnext, hrest⟩
    obtain ⟨hnext, hs₁⟩ := okOr_eq_ok.mp hnext
    rw [hs₁] at hrest
    obtain ⟨⟨⟩, s₂, hlimit, hwrite⟩ := bind_eq_ok.mp hrest
    obtain ⟨hlimit, hs₂⟩ := atMost_eq_ok.mp hlimit
    rw [hs₂] at hwrite
    rw [checkedAdd] at hnext
    split at hnext
    · next hmax =>
        obtain rfl := Option.some.inj hnext
        obtain ⟨-, rfl⟩ := Prod.mk.inj hwrite
        exact ⟨⟨hmax, hlimit⟩, rfl⟩
    · simp at hnext
  · rintro ⟨⟨hmax, hlimit⟩, rfl⟩
    refine ⟨_, s, okOr_eq_ok.mpr ⟨if_pos hmax, rfl⟩, ?_⟩
    exact bind_eq_ok.mpr ⟨(), s, atMost_eq_ok.mpr ⟨hlimit, rfl⟩, rfl⟩

lemma fixed_run (width n : ℕ) (s : Encoder) :
    Encoder.fixed (leBytes width n) (beBytes width n) s =
      Encoder.orFail (Encoder.emit (toBytes s.config width n)) s := rfl

/-- Both paths write the canonical varint. -/
lemma varint_run (n : ℕ) (s : Encoder) :
    Encoder.varint n s = Encoder.orFail (Encoder.emit (spellVarint s.config n)) s := by
  rw [Encoder.varint, get_bind_run]
  by_cases hlittle : s.config.endian.isLittle
  · have hspell : spellVarint s.config n = encodeVarintLe n := by
      simp only [spellVarint, encodeVarintLe, toBytes, if_pos hlittle]
    rw [if_pos hlittle, hspell]
  · rw [if_neg hlittle, spellVarint]
    simp only [toBytes, if_neg hlittle]
    split_ifs <;> rfl

/-- The low bytes of a 128-bit word, in the byte order of the configuration. -/
lemma lowBytes_run {width n : ℕ} (h : width ≤ 16) (s : Encoder) :
    Encoder.fixed ((leBytes 16 n).take width) ((beBytes 16 n).drop (16 - width)) s =
      Encoder.orFail (Encoder.emit (toBytes s.config width n)) s := by
  rw [take_leBytes h, drop_beBytes h, fixed_run]

/-- The payload of an unsigned integer is written in one go. -/
lemma unsigned_run {width : ℕ} (h : width ≤ 16) (n : ℕ) (s : Encoder) :
    Encoder.unsigned n width s =
      Encoder.orFail (Encoder.emit (spellInt s.config width n)) s := by
  rw [Encoder.unsigned, get_bind_run, spellInt]
  split
  · exact varint_run n s
  · exact lowBytes_run h s

/-- The payload of a signed integer is that of its word. -/
lemma signed_run {width : ℕ} (h : width ≤ 16) (value : ℤ) (s : Encoder) :
    Encoder.signed value width s =
      Encoder.orFail (Encoder.emit (spellInt s.config width (wordOf s.config width value))) s := by
  rw [Encoder.signed, get_bind_run, spellInt, wordOf]
  split
  · exact varint_run _ s
  · have hmod : toBytes s.config width (Encoder.word128 value % 256 ^ width)
        = toBytes s.config width (Encoder.word128 value) := by
      rw [toBytes, toBytes, beBytes, beBytes, leBytes_mod]
    rw [hmod]
    exact lowBytes_run h s

namespace Writes

variable {m n : Enc Unit} {xs ys : List UInt8} {P Q : Prop}

omit [Target] in
lemma emit (bs : List UInt8) : Writes c (Encoder.orFail (Encoder.emit bs)) bs True := by
  intro s t u hs h
  obtain ⟨⟨hmax, hlimit⟩, rfl⟩ := emit_eq_ok.mp h
  refine ⟨rfl, ⟨hs.config_eq, ?_, hmax, ?_⟩, trivial⟩
  · show s.written + bs.length = (s.writer ++ bs).length
    rw [List.length_append, hs.written_eq]
  · rw [← hs.config_eq]
    exact hlimit

omit [Target] in
/-- A method that writes its bytes in one go. -/
lemma of_run {f : Config → List UInt8}
    (h : ∀ s, m s = Encoder.orFail (Encoder.emit (f s.config)) s) : Writes c m (f c) True := by
  intro s t u hs hm
  rw [h, hs.config_eq] at hm
  exact emit (f c) s t u hs hm

omit [Target] in
lemma bind (hm : Writes c m xs P) (hn : Writes c n ys Q) :
    Writes c (m >>= fun _ => n) (xs ++ ys) (P ∧ Q) := by
  intro s u v hs h
  obtain ⟨⟨⟩, t, hfirst, hsecond⟩ := bind_eq_ok.mp h
  obtain ⟨rfl, ht, hP⟩ := hm s t _ hs hfirst
  obtain ⟨rfl, hu, hQ⟩ := hn _ u _ ht hsecond
  refine ⟨?_, hu, hP, hQ⟩
  simp only [wrote, List.append_assoc, List.length_append, Nat.add_assoc]

omit [Target] in
lemma never (h : ∀ s t u, m s ≠ (.ok u, t)) : Writes c m xs P :=
  fun s t u _ hm => absurd hm (h s t u)

omit [Target] in
lemma imp (hm : Writes c m xs P) (h : P → Q) : Writes c m xs Q := by
  intro s t u hs hrun
  obtain ⟨ht, hbounds, hP⟩ := hm s t u hs hrun
  exact ⟨ht, hbounds, h hP⟩

omit [Target] in
lemma tag (tag : UInt8) : Writes c (Encoder.emitTag tag) [tag] True := emit [tag]

lemma fixed (width n : ℕ) :
    Writes c (Encoder.fixed (leBytes width n) (beBytes width n)) (toBytes c width n) True :=
  of_run (f := fun c => toBytes c width n) (fixed_run width n)

lemma unsigned {width : ℕ} (h : width ≤ 16) (n : ℕ) :
    Writes c (Encoder.unsigned n width) (spellInt c width n) True :=
  of_run (f := fun c => spellInt c width n) (unsigned_run h n)

lemma signed {width : ℕ} (h : width ≤ 16) (value : ℤ) :
    Writes c (Encoder.signed value width) (spellInt c width (wordOf c width value)) True :=
  of_run (f := fun c => spellInt c width (wordOf c width value)) (signed_run h value)

lemma length (len : ℕ) : Writes c (Encoder.length len) (spellInt c 8 len) (len ≤ u64Max) := by
  rw [Encoder.length]
  split
  · next h => exact (unsigned (by decide) len).imp fun _ => h
  · exact never fun s t u => by simp [Encoder.fail]

lemma writeStrValue (text : String) :
    Writes c (Encoder.writeStrValue text) (tagString :: spellStr c (toUtf8 text))
      ((toUtf8 text).length < 2 ^ 64) := by
  refine ((tag tagString).bind ((length _).bind (emit (toUtf8 text)))).imp ?_
  rintro ⟨-, hmax, -⟩
  rw [u64Max] at hmax
  omega

/-- A scalar is written as it is spelled on the wire. -/
lemma scalar (value : Scalar) :
    Writes c value.write ((value.wire c).spell c) ((value.wire c).Fits c) := by
  cases value with
  | null => exact (tag tagNull).imp fun _ => trivial
  | bool value => cases value <;> exact (tag _).imp fun _ => trivial
  | u64 value fits =>
      refine ((tag tagU64).bind (unsigned (by decide) value)).imp fun _ => ?_
      exact isWord_length fits
  | u128 value fits =>
      refine ((tag tagU128).bind (unsigned (by decide) value)).imp fun _ => ?_
      change IsWord c 16 value
      rw [IsWord]
      split <;> omega
  | i64 value low high =>
      exact ((tag tagI64).bind (signed (by decide) value)).imp fun _ => (signedWord_64 low high).1
  | i128 value low high =>
      exact ((tag tagI128).bind (signed (by decide) value)).imp fun _ => (signedWord_128 low high).1
  | f64 bits fits =>
      rw [Scalar.write, Encoder.writeF64]
      split
      · exact ((tag tagF64).bind (fixed 8 bits)).imp fun _ => fits
      · exact never fun s t u => by simp [Encoder.fail]
  | f32 bits fits =>
      rw [Scalar.write, Encoder.writeF32]
      split
      · exact ((tag tagF32).bind (fixed 4 bits)).imp fun _ => fits
      · exact never fun s t u => by simp [Encoder.fail]
  | str value => exact writeStrValue value
  | char value => exact writeStrValue (String.singleton value)

end Writes

/-! ## What a value is written as -/

/-- No entries are counted at the depths that are not open. -/
structure Cleared (s : Encoder) : Prop where
  depth_le : s.depth ≤ maxDepth
  counts_zero : ∀ (i : ℕ) (hi : i < maxDepth), s.depth ≤ i → s.counts[i] = 0

/-- The encoder with `k` more entries counted at the level `d`. -/
def withEntries (s : Encoder) (d k : ℕ) (hd : d < maxDepth) : Encoder :=
  { s with counts := s.counts.set d (s.counts[d] + k) hd }

section Steps

variable {s t : Encoder} {u : Unit}

omit [Target] in
lemma enterContainer_ok {tag : UInt8} (hs : InBounds c s)
    (h : Encoder.enterContainer tag s = (.ok u, t)) :
    s.depth < c.depthLimit ∧ t = { wrote s [tag] with depth := s.depth + 1 } ∧ InBounds c t := by
  rw [Encoder.enterContainer, get_bind_run, hs.config_eq] at h
  split at h
  · simp [Encoder.fail] at h
  · next hdepth =>
      obtain ⟨⟨⟩, v, hemit, h⟩ := bind_eq_ok.mp h
      obtain ⟨rfl, hv, -⟩ := Writes.tag tag s v _ hs hemit
      simp only [modify_run, Prod.mk.injEq, true_and] at h
      subst h
      exact ⟨Nat.lt_of_not_le hdepth, rfl, ⟨hv.config_eq, hv.written_eq, hv.le_max, hv.le_limit⟩⟩

omit [Target] in
lemma countElement_ok {d : ℕ} (hd : d < maxDepth) (hdepth : s.depth = d + 1) (hs : InBounds c s)
    (h : Encoder.countElement s = (.ok u, t)) :
    (∀ l, c.collectionLimit = some l → s.counts[d] + 1 ≤ l) ∧ t = withEntries s d 1 hd := by
  rw [Encoder.countElement, get_bind_run, hdepth] at h
  dsimp only at h
  rw [dif_pos hd] at h
  obtain ⟨count, _, hcount, h⟩ := bind_eq_ok.mp h
  rw [encoder_orFail_eq_ok, okOr_eq_ok, checkedAdd] at hcount
  obtain ⟨hcount, rfl⟩ := hcount
  split at hcount
  · obtain rfl := Option.some.inj hcount
    obtain ⟨⟨⟩, _, hlimit, h⟩ := bind_eq_ok.mp h
    rw [encoder_orFail_eq_ok, atMost_eq_ok, hs.config_eq] at hlimit
    obtain ⟨hlimit, rfl⟩ := hlimit
    simp only [modify_run, Prod.mk.injEq, true_and] at h
    exact ⟨hlimit, h.symm⟩
  · simp at hcount

omit [Target] in
lemma encoder_exitContainer_ok {d : ℕ} (hd : d < maxDepth) (hdepth : s.depth = d + 1)
    (hs : InBounds c s) (h : Encoder.exitContainer s = (.ok u, t)) :
    t = wrote { s with depth := d, counts := s.counts.set d 0 hd } [tagEnd] ∧ InBounds c t := by
  rw [Encoder.exitContainer, get_bind_run, hdepth] at h
  dsimp only at h
  rw [dif_pos hd, modify_bind_run] at h
  have hbounds : InBounds c { s with depth := d, counts := s.counts.set d 0 hd } :=
    ⟨hs.config_eq, hs.written_eq, hs.le_max, hs.le_limit⟩
  obtain ⟨rfl, ht, -⟩ := Writes.tag tagEnd _ t _ hbounds h
  exact ⟨rfl, ht⟩

lemma key_ok {d : ℕ} (hd : d < maxDepth) {text : String} (hdepth : s.depth = d + 1)
    (hs : InBounds c s) (h : Encoder.key text s = (.ok u, t)) :
    (∀ l, c.collectionLimit = some l → s.counts[d] + 1 ≤ l) ∧
      t = wrote (withEntries s d 1 hd) (tagString :: spellStr c (toUtf8 text)) ∧ InBounds c t ∧
      (toUtf8 text).length < 2 ^ 64 := by
  have hbounds : InBounds c (withEntries s d 1 hd) :=
    ⟨hs.config_eq, hs.written_eq, hs.le_max, hs.le_limit⟩
  rw [Encoder.key] at h
  obtain ⟨⟨⟩, v, hcount, h⟩ := bind_eq_ok.mp h
  obtain ⟨hlimit, rfl⟩ := countElement_ok hd hdepth hs hcount
  obtain ⟨rfl, ht, hlen⟩ := Writes.writeStrValue text _ t _ hbounds h
  exact ⟨hlimit, rfl, ht, hlen⟩

lemma beginEntry_ok {d : ℕ} (hd : d < maxDepth) {kind : Kind} {key : KeyOf String kind}
    (hdepth : s.depth = d + 1) (hs : InBounds c s) (h : Encoder.beginEntry key s = (.ok u, t)) :
    (∀ l, c.collectionLimit = some l → s.counts[d] + 1 ≤ l) ∧
      t = wrote (withEntries s d 1 hd) (spellKey c (key.map toUtf8)) ∧ InBounds c t ∧
      (key.map toUtf8).All fun bytes => bytes.length < 2 ^ 64 := by
  cases kind with
  | array =>
      obtain ⟨hlimit, rfl⟩ := countElement_ok hd hdepth hs h
      refine ⟨hlimit, ?_, ⟨hs.config_eq, hs.written_eq, hs.le_max, hs.le_limit⟩, trivial⟩
      simp [wrote, spellKey, withEntries]
  | object => exact key_ok hd hdepth hs h

end Steps

omit [Target] in
/-- Writing one entry and then the rest is writing all of them. -/
lemma wrote_withEntries (s : Encoder) {d k m : ℕ} (hd : d < maxDepth) (xs ys zs : List UInt8) :
    wrote (withEntries (wrote (wrote (withEntries s d k hd) xs) ys) d m hd) zs
      = wrote (withEntries s d (k + m) hd) (xs ++ (ys ++ zs)) := by
  simp only [wrote, withEntries, Vector.set_set, Vector.getElem_set_self, List.append_assoc,
    List.length_append, Nat.add_assoc]

omit [Target] in
/-- A container that has been opened and closed again leaves its level cleared. -/
lemma wrote_container (s : Encoder) {d k : ℕ} (hd : d < maxDepth) (hdepth : s.depth = d)
    (hzero : s.counts[d] = 0) (tag : UInt8) (bs : List UInt8) (opened : Encoder)
    (hopened : opened = wrote (withEntries { wrote s [tag] with depth := s.depth + 1 } d k hd) bs) :
    wrote { opened with depth := d, counts := opened.counts.set d 0 hd } [tagEnd]
      = wrote s (tag :: (bs ++ [tagEnd])) := by
  have hcounts : (s.counts.set d (s.counts[d] + k) hd).set d 0 hd = s.counts := by
    rw [Vector.set_set]
    nth_rewrite 1 [← hzero]
    exact Vector.set_getElem_self hd
  subst hopened hdepth
  simp only [wrote, withEntries, hcounts, List.append_assoc, List.length_append, List.length_cons,
    List.length_nil, List.singleton_append, EncoderTo.mk.injEq, true_and, and_true]
  exact ⟨rfl, by omega⟩

/-- What a value is on the wire. -/
def wireOf (c : Config) (value : Tree Scalar String) : WireValue := value.map (Scalar.wire c) toUtf8

mutual

/-- A value is written as it is spelled on the wire, within the limits. -/
lemma writeValue_ok : ∀ (value : Tree Scalar String) {s t : Encoder} {u : Unit}, InBounds c s →
    Cleared s → Encoder.writeValue value s = (.ok u, t) →
    t = wrote s (spellValue c (wireOf c value)) ∧ InBounds c t ∧ Fits c (wireOf c value) ∧
      value.Within c.collectionLimit (c.depthLimit - s.depth)
  | .scalar value, s, t, u, hs, _, h => by
      obtain ⟨rfl, ht, hfits⟩ := Writes.scalar value s t u hs h
      exact ⟨rfl, ht, hfits, trivial⟩
  | .node kind entries, s, u, _, hs, hclear, h => by
      have hbegin : (Encoder.beginContainer kind : Enc Unit) =
          Encoder.enterContainer (kindTag kind) := by
        cases kind <;> rfl
      have hend : (Encoder.endContainer kind : Enc Unit) = Encoder.exitContainer := by
        cases kind <;> rfl
      rw [Encoder.writeValue, hbegin, hend] at h
      obtain ⟨⟨⟩, t₁, henter, h⟩ := bind_eq_ok.mp h
      obtain ⟨⟨⟩, t₂, hentries, hexit⟩ := bind_eq_ok.mp h
      obtain ⟨hdepth, rfl, hs₁⟩ := enterContainer_ok hs henter
      have hd : s.depth < maxDepth := hdepth.trans_le c.depthLimit_le
      have hclear₁ : Cleared { wrote s [kindTag kind] with depth := s.depth + 1 } := by
        refine ⟨hd, fun i hi hle => hclear.counts_zero i hi ?_⟩
        have : s.depth + 1 ≤ i := hle
        omega
      obtain ⟨rfl, hs₂, hfits, hwithin, hlimit⟩ :=
        writeEntries_ok entries s.depth hd rfl hs₁ hclear₁ hentries
      obtain ⟨rfl, ht⟩ := encoder_exitContainer_ok hd rfl hs₂ hexit
      have hzero : s.counts[s.depth] = 0 := hclear.counts_zero s.depth hd (Nat.le_refl _)
      refine ⟨?_, ht, hfits, by omega, fun l hl => ?_, ?_⟩
      · exact wrote_container s hd rfl hzero (kindTag kind) _ _ rfl
      · rcases Nat.eq_zero_or_pos entries.length with hnil | hpos
        · omega
        · have hle : s.counts[s.depth] + entries.length ≤ l := hlimit hpos l hl
          omega
      · rw [Nat.sub_sub]
        exact hwithin

lemma writeEntries_ok {kind : Kind} : ∀ (entries : Forest Scalar String kind) {s t : Encoder}
    {u : Unit} (d : ℕ) (hd : d < maxDepth), s.depth = d + 1 → InBounds c s → Cleared s →
    Encoder.writeEntries entries s = (.ok u, t) →
    t = wrote (withEntries s d entries.length hd)
        (spellEntries c (entries.map (Scalar.wire c) toUtf8)) ∧ InBounds c t ∧
      (entries.map (Scalar.wire c) toUtf8).All (WireScalar.Fits c)
        (fun key => key.length < 2 ^ 64) ∧
      entries.Within c.collectionLimit (c.depthLimit - s.depth) ∧
      (0 < entries.length → ∀ l, c.collectionLimit = some l → s.counts[d] + entries.length ≤ l)
  | .nil, s, t, u, d, hd, hdepth, hs, hclear, h => by
      rw [Encoder.writeEntries] at h
      obtain ⟨-, rfl⟩ := Prod.mk.inj h
      refine ⟨?_, hs, trivial, trivial, by simp [Forest.length]⟩
      simp [wrote, withEntries, Forest.length, Forest.map, spellEntries]
  | .cons key value rest, s, u, _, d, hd, hdepth, hs, hclear, h => by
      rw [Encoder.writeEntries] at h
      obtain ⟨⟨⟩, t₁, hkey, h⟩ := bind_eq_ok.mp h
      obtain ⟨⟨⟩, t₂, hvalue, hrest⟩ := bind_eq_ok.mp h
      obtain ⟨hone, rfl, hs₁, hkeyFits⟩ := beginEntry_ok hd hdepth hs hkey
      have hclear₁ : Cleared (wrote (withEntries s d 1 hd) (spellKey c (key.map toUtf8))) := by
        refine ⟨hclear.depth_le, fun i hi hle => ?_⟩
        have hle : s.depth ≤ i := hle
        simp only [wrote, withEntries]
        rw [Vector.getElem_set_ne _ _ (by omega)]
        exact hclear.counts_zero i hi hle
      obtain ⟨rfl, hs₂, hvalueFits, hvalueWithin⟩ := writeValue_ok value hs₁ hclear₁ hvalue
      have hdepth₂ : (wrote (wrote (withEntries s d 1 hd) (spellKey c (key.map toUtf8)))
          (spellValue c (wireOf c value))).depth = d + 1 := hdepth
      have hclear₂ : Cleared (wrote (wrote (withEntries s d 1 hd) (spellKey c (key.map toUtf8)))
          (spellValue c (wireOf c value))) := ⟨hclear₁.depth_le, hclear₁.counts_zero⟩
      obtain ⟨rfl, ht, hrestFits, hrestWithin, hlimit⟩ :=
        writeEntries_ok rest d hd hdepth₂ hs₂ hclear₂ hrest
      have hcount : (wrote (wrote (withEntries s d 1 hd) (spellKey c (key.map toUtf8)))
          (spellValue c (wireOf c value))).counts[d] = s.counts[d] + 1 := Vector.getElem_set_self hd
      refine ⟨?_, ht, ⟨hkeyFits, hvalueFits, hrestFits⟩, ⟨hvalueWithin, hrestWithin⟩, ?_⟩
      · rw [wrote_withEntries, Forest.length, Nat.add_comm 1 rest.length]
        rfl
      · intro _ l hl
        rw [Forest.length]
        rcases Nat.eq_zero_or_pos rest.length with hnil | hpos
        · have := hone l hl
          omega
        · have := hlimit hpos l hl
          omega

end

omit [Target] in
lemma inBounds_new (config : Config) : InBounds config (Encoder.new config) :=
  ⟨rfl, rfl, Nat.zero_le _, fun _ _ => Nat.zero_le _⟩

omit [Target] in
lemma cleared_new (config : Config) : Cleared (Encoder.new config) := by
  refine ⟨Nat.zero_le _, fun i hi _ => ?_⟩
  simp [Encoder.new, Encoder.start]

/-- A value that the encoder accepts is read back from the bytes that it has written, all of
them, by a decoder that then stands outside of every container, where it has started. -/
theorem readValue_writeValue {value : Tree Scalar String} {s : Encoder}
    (h : Encoder.writeValue value (Encoder.new c) = (.ok (), s)) :
    s.depth = 0 ∧ ∃ input : Input, input.bytes = s.writer ∧ ∀ n, s.writer.length ≤ n →
      Decoder.readValue n (Decoder.new input c)
        = (.ok (value.map Scalar.token id),
            { Decoder.new input c with cursor := s.writer.length }) := by
  obtain ⟨rfl, hbounds, hfits, hwithin⟩ :=
    writeValue_ok value (inBounds_new c) (cleared_new c) h
  obtain ⟨bs, hbs⟩ : ∃ bs, bs = spellValue c (wireOf c value) := ⟨_, rfl⟩
  rw [← hbs] at hbounds ⊢
  have hwriter : (wrote (Encoder.new c) bs).writer = bs := by
    simp [wrote, Encoder.new, Encoder.start]
  have hwritten : (wrote (Encoder.new c) bs).written = bs.length := by
    simp [wrote, Encoder.new, Encoder.start]
  have hmax : bs.length ≤ u64Max := by
    rw [← hwritten]
    exact hbounds.le_max
  refine ⟨rfl, ⟨bs, hmax⟩, hwriter.symm, fun n hn => ?_⟩
  rw [hwriter] at hn ⊢
  have hdecode : decodeValue c (wireOf c value) = some (value.map Scalar.token id) :=
    Tree.mapOption_map (Scalar.token_wire (c := c)) fromUtf8_toUtf8 value
  have hrounds : (wireOf c value).rounds ≤ n := by
    refine (rounds_le_value (c := c) _).trans ?_
    rw [← hbs]
    exact hn
  have hwithin : (wireOf c value).Within c.collectionLimit (c.depthLimit - 0) :=
    (Tree.within_map _ _ _ _ value).mpr hwithin
  have hhere : Tape.Here (Decoder.new ⟨bs, hmax⟩ c) (spellValue c (wireOf c value)) := by
    rw [← hbs]
    refine ⟨slice_eq_some.mpr ⟨Nat.le_add_right _ _, ?_, ?_⟩, fun l hl => ?_⟩
    · exact (Nat.zero_add _).le
    · simp [Decoder.new]
    · rw [show (Decoder.new ⟨bs, hmax⟩ c).cursor + bs.length = bs.length from Nat.zero_add _]
      have := hbounds.le_limit l hl
      rw [hwritten] at this
      exact this
  rw [(readValue_complete n).1 _ _ _ (ready_new _ c) hrounds hfits hdecode hwithin hhere, ← hbs]
  simp only [after, Tape.advance, Decoder.new, Nat.zero_add]

end RustBinary.Native

namespace RustBinary.Native

open Lib

section Witness

local instance littleEndian : Target := ⟨true⟩

/-- An object with one entry, the array `[null, 300, -1]`. -/
def sample : Tree Scalar String :=
  .node .object (.cons "a" (.node .array (.cons () (.scalar .null)
    (.cons () (.scalar (.u64 300 (by decide)))
      (.cons () (.scalar (.i64 (-1) (by decide) (by decide))) .nil)))) .nil)

theorem readValue_writeValue_sample :
    ∃ input : Input, input.bytes.length = 14 ∧
      Decoder.readValue 14 (Decoder.new input .standard)
        = (.ok (sample.map Scalar.token id), { Decoder.new input .standard with cursor := 14 }) := by
  have hok : (Encoder.writeValue sample (Encoder.new .standard)).1 = .ok () := by decide +kernel
  have hlen : (Encoder.writeValue sample (Encoder.new .standard)).2.writer.length = 14 := by
    decide +kernel
  obtain ⟨run, hrun⟩ : ∃ run, run = Encoder.writeValue sample (Encoder.new .standard) := ⟨_, rfl⟩
  rw [← hrun] at hok hlen
  have h : Encoder.writeValue sample (Encoder.new .standard) = (.ok (), run.2) := by
    rw [← hrun, ← hok]
  obtain ⟨-, input, hbytes, hread⟩ := readValue_writeValue h
  refine ⟨input, by rw [hbytes, hlen], ?_⟩
  rw [← hlen]
  exact hread _ (Nat.le_refl _)

end Witness

end RustBinary.Native
