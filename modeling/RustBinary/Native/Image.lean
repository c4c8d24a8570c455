import RustBinary.Native.Payload

/-!
# What a decoder accepts is what an encoder writes

A successful encoder has written the wire value of its tree, within the limits of its
configuration.  Here the converse is shown: where the limits admit the wire value, and no number
in it is infinite or not a number, the encoder succeeds.  Since a decoder accepts exactly the wire
values that the limits admit, it accepts the same bytes that the encoder writes, and besides them
only such numbers.
-/

namespace RustBinary.Native

open Lib Lib.Act

/-! ## Finite numbers -/

/-- The number that a scalar holds is finite. -/
def Scalar.Finite : Scalar → Prop
  | f64 bits _ => Encoder.isFinite64 bits = true
  | f32 bits _ => Encoder.isFinite32 bits = true
  | _ => True

/-- The number that a token holds is finite. -/
def TokenFinite : Token → Prop
  | .number (.f64 bits) => Encoder.isFinite64 bits = true
  | _ => True

/-- The exponent of a number that is given by its fraction and its scale. -/
lemma f64OfScaled_div (sign : ℕ) {fraction : ℕ} (exponent : ℤ) (hpos : 0 < fraction)
    (hfraction : fraction < 2 ^ 53) :
    f64OfScaled sign fraction exponent / 2 ^ 52
      = sign * 2 ^ 11 + (1023 + Nat.log2 fraction + exponent).toNat := by
  have hlog : Nat.log2 fraction ≤ 52 := by
    have := (Nat.log2_lt hpos.ne').mpr hfraction
    omega
  have hlow : 2 ^ Nat.log2 fraction ≤ fraction := Nat.log2_self_le hpos.ne'
  have hhigh : fraction < 2 ^ (Nat.log2 fraction + 1) := Nat.lt_log2_self
  have hrest : (fraction - 2 ^ Nat.log2 fraction) * 2 ^ (52 - Nat.log2 fraction) < 2 ^ 52 := by
    calc (fraction - 2 ^ Nat.log2 fraction) * 2 ^ (52 - Nat.log2 fraction)
        < 2 ^ Nat.log2 fraction * 2 ^ (52 - Nat.log2 fraction) := by
          refine Nat.mul_lt_mul_of_pos_right ?_ (Nat.two_pow_pos _)
          rw [Nat.pow_succ] at hhigh
          omega
      _ = 2 ^ 52 := by
          rw [← Nat.pow_add]
          congr 1
          omega
  rw [f64OfScaled]
  generalize (fraction - 2 ^ Nat.log2 fraction) * 2 ^ (52 - Nat.log2 fraction) = rest at hrest ⊢
  omega

/-- A single-precision number stays finite, or not, when it is widened. -/
lemma isFinite64_f32ToF64 (bits : ℕ) :
    Encoder.isFinite64 (f32ToF64 bits) = Encoder.isFinite32 bits := by
  have hfraction : bits % 2 ^ 23 < 2 ^ 23 := Nat.mod_lt _ (by decide)
  have hexponent : bits / 2 ^ 23 % 2 ^ 8 < 2 ^ 8 := Nat.mod_lt _ (by decide)
  rw [Encoder.isFinite64, Encoder.isFinite32, f32ToF64]
  rw [Bool.eq_iff_iff, bne_iff_ne, bne_iff_ne]
  split
  · next hzero =>
      split
      · omega
      · have hlog : Nat.log2 (bits % 2 ^ 23) < 23 :=
          (Nat.log2_lt (by omega)).mpr hfraction
        rw [f64OfScaled_div _ _ (by omega) (by omega)]
        omega
  · split
    · split <;> omega
    · have hlog : Nat.log2 (bits % 2 ^ 23 + 2 ^ 23) < 24 :=
        (Nat.log2_lt (by omega)).mpr (by omega)
      rw [f64OfScaled_div _ _ (by omega) (by omega)]
      omega

lemma Scalar.finite_token (value : Scalar) : TokenFinite value.token ↔ value.Finite := by
  cases value with
  | f32 bits fits =>
      rw [Scalar.token, TokenFinite, Scalar.Finite, isFinite64_f32ToF64]
  | _ => rfl

/-! ## Writing where the limits admit it -/

variable [Target] {c : Config}

section Room

variable {s : Encoder} (xs ys : List UInt8)

omit [Target] in
lemma HasRoom.left (h : HasRoom s (xs ++ ys).length) : HasRoom s xs.length := by
  rw [List.length_append] at h
  exact ⟨by have := h.1; omega, fun l hl => by have := h.2 l hl; omega⟩

omit [Target] in
lemma HasRoom.right (h : HasRoom s (xs ++ ys).length) : HasRoom (wrote s xs) ys.length := by
  rw [List.length_append] at h
  refine ⟨?_, fun l hl => ?_⟩
  · rw [show (wrote s xs).written = s.written + xs.length from rfl, Nat.add_assoc]
    exact h.1
  · rw [show (wrote s xs).written = s.written + xs.length from rfl, Nat.add_assoc]
    exact h.2 l hl

end Room

/-- Where there is room for `bs` and `P` holds, `m` succeeds and writes `bs`. -/
def Emits (c : Config) (m : Enc Unit) (bs : List UInt8) (P : Prop) : Prop :=
  ∀ s, s.config = c → HasRoom s bs.length → P → m s = (.ok (), wrote s bs)

namespace Emits

variable {m n : Enc Unit} {xs ys : List UInt8} {P Q : Prop}

omit [Target] in
lemma of_run {f : Config → List UInt8}
    (h : ∀ s, m s = Encoder.orFail (Encoder.emit (f s.config)) s) : Emits c m (f c) True := by
  rintro s rfl hroom -
  rw [h]
  exact emit_eq_ok.mpr ⟨hroom, rfl⟩

omit [Target] in
lemma bind (hm : Emits c m xs P) (hn : Emits c n ys Q) :
    Emits c (m >>= fun _ => n) (xs ++ ys) (P ∧ Q) := by
  rintro s hs hroom ⟨hp, hq⟩
  rw [bind_of_ok (hm s hs (hroom.left xs ys) hp), hn (wrote s xs) hs (hroom.right xs ys) hq]
  simp only [wrote, List.append_assoc, List.length_append, Nat.add_assoc]

omit [Target] in
lemma imp (hm : Emits c m xs P) (h : Q → P) : Emits c m xs Q :=
  fun s hs hroom hq => hm s hs hroom (h hq)

omit [Target] in
lemma tag (tag : UInt8) : Emits c (Encoder.emitTag tag) [tag] True :=
  of_run (f := fun _ => [tag]) fun _ => rfl

lemma fixed (width n : ℕ) :
    Emits c (Encoder.fixed (leBytes width n) (beBytes width n)) (toBytes c width n) True :=
  of_run (f := fun c => toBytes c width n) (fixed_run width n)

lemma unsigned {width : ℕ} (h : width ≤ 16) (n : ℕ) :
    Emits c (Encoder.unsigned n width) (spellInt c width n) True :=
  of_run (f := fun c => spellInt c width n) (unsigned_run h n)

lemma signed {width : ℕ} (h : width ≤ 16) (value : ℤ) :
    Emits c (Encoder.signed value width) (spellInt c width (wordOf c width value)) True :=
  of_run (f := fun c => spellInt c width (wordOf c width value)) (signed_run h value)

lemma length (len : ℕ) : Emits c (Encoder.length len) (spellInt c 8 len) (len < 2 ^ 64) := by
  intro s hs hroom hlen
  rw [Encoder.length, if_pos (by rw [u64Max]; omega)]
  exact unsigned (by decide) len s hs hroom trivial

lemma writeStrValue (text : String) :
    Emits c (Encoder.writeStrValue text) (tagString :: spellStr c (toUtf8 text))
      ((toUtf8 text).length < 2 ^ 64) := by
  have hbytes : Emits c (Encoder.orFail (Encoder.emit (toUtf8 text))) (toUtf8 text) True :=
    of_run (f := fun _ => toUtf8 text) fun _ => rfl
  exact ((tag tagString).bind ((length (toUtf8 text).length).bind hbytes)).imp
    fun hlen => ⟨trivial, hlen, trivial⟩

/-- A finite scalar that fits its payload is written. -/
lemma scalar (value : Scalar) :
    Emits c value.write ((value.wire c).spell c) ((value.wire c).Fits c ∧ value.Finite) := by
  cases value with
  | null => exact (tag tagNull).imp fun _ => trivial
  | bool value => cases value <;> exact (tag _).imp fun _ => trivial
  | u64 value fits =>
      exact ((tag tagU64).bind (unsigned (by decide) value)).imp fun _ => ⟨trivial, trivial⟩
  | u128 value fits =>
      exact ((tag tagU128).bind (unsigned (by decide) value)).imp fun _ => ⟨trivial, trivial⟩
  | i64 value low high =>
      exact ((tag tagI64).bind (signed (by decide) value)).imp fun _ => ⟨trivial, trivial⟩
  | i128 value low high =>
      exact ((tag tagI128).bind (signed (by decide) value)).imp fun _ => ⟨trivial, trivial⟩
  | f64 bits fits =>
      rintro s hs hroom ⟨-, hfinite⟩
      rw [Scalar.write, Encoder.writeF64, if_pos (show Encoder.isFinite64 bits = true from hfinite)]
      exact (tag tagF64).bind (fixed 8 bits) s hs hroom ⟨trivial, trivial⟩
  | f32 bits fits =>
      rintro s hs hroom ⟨-, hfinite⟩
      rw [Scalar.write, Encoder.writeF32, if_pos (show Encoder.isFinite32 bits = true from hfinite)]
      exact (tag tagF32).bind (fixed 4 bits) s hs hroom ⟨trivial, trivial⟩
  | str value => exact (writeStrValue value).imp fun h => h.1
  | char value => exact (writeStrValue (String.singleton value)).imp fun h => h.1

end Emits

section Steps

variable {s : Encoder}

omit [Target] in
lemma enterContainer_of_room {tag : UInt8} (hdepth : s.depth < s.config.depthLimit)
    (hroom : HasRoom s 1) :
    Encoder.enterContainer tag s = (.ok (), { wrote s [tag] with depth := s.depth + 1 }) := by
  rw [Encoder.enterContainer, get_bind_run, if_neg (Nat.not_le.mpr hdepth),
    bind_of_ok (Emits.tag tag s rfl hroom trivial), modify_run]
  rfl

omit [Target] in
lemma countElement_of_le {d : ℕ} (hd : d < maxDepth) (hdepth : s.depth = d + 1)
    (hmax : s.counts[d] + 1 ≤ u64Max)
    (hlimit : ∀ l, s.config.collectionLimit = some l → s.counts[d] + 1 ≤ l) :
    Encoder.countElement s = (.ok (), withEntries s d 1 hd) := by
  have hcount : (Encoder.orFail (okOr (checkedAdd s.counts[d] 1)
      (.collectionLimit u64Max)) : Enc ℕ) s = (.ok (s.counts[d] + 1), s) := by
    rw [encoder_orFail_eq_ok, okOr_eq_ok, checkedAdd, if_pos hmax]
    exact ⟨rfl, rfl⟩
  have hatMost : (Encoder.orFail (atMost s.config.collectionLimit (s.counts[d] + 1)
      .collectionLimit) : Enc Unit) s = (.ok (), s) := by
    rw [encoder_orFail_eq_ok, atMost_eq_ok]
    exact ⟨hlimit, rfl⟩
  rw [Encoder.countElement, get_bind_run, hdepth]
  dsimp only
  rw [dif_pos hd, bind_of_ok hcount, bind_of_ok hatMost, modify_run]
  rfl

omit [Target] in
lemma encoder_exitContainer_of_room {d : ℕ} (hd : d < maxDepth) (hdepth : s.depth = d + 1)
    (hroom : HasRoom s 1) :
    Encoder.exitContainer s
      = (.ok (), wrote { s with depth := d, counts := s.counts.set d 0 hd } [tagEnd]) := by
  rw [Encoder.exitContainer, get_bind_run, hdepth]
  dsimp only
  rw [dif_pos hd, modify_bind_run]
  exact Emits.tag tagEnd { s with depth := d, counts := s.counts.set d 0 hd } rfl hroom trivial

/-- An entry is begun where the limits admit one more, and there is room for its key. -/
lemma beginEntry_of_room {d : ℕ} (hd : d < maxDepth) {kind : Kind} {key : KeyOf String kind}
    (hs : s.config = c) (hdepth : s.depth = d + 1) (hmax : s.counts[d] + 1 ≤ u64Max)
    (hlimit : ∀ l, c.collectionLimit = some l → s.counts[d] + 1 ≤ l)
    (hkey : (key.map toUtf8).All fun bytes => bytes.length < 2 ^ 64)
    (hroom : HasRoom s (spellKey c (key.map toUtf8)).length) :
    Encoder.beginEntry key s
      = (.ok (), wrote (withEntries s d 1 hd) (spellKey c (key.map toUtf8))) := by
  have hcount := countElement_of_le hd hdepth hmax (by rwa [hs])
  cases kind with
  | array =>
      rw [show (Encoder.beginEntry key : Enc Unit) = Encoder.countElement from rfl, hcount]
      simp [wrote, spellKey, withEntries]
  | object =>
      rw [show (Encoder.beginEntry key : Enc Unit)
        = Encoder.countElement >>= fun _ => Encoder.writeStrValue key from rfl, bind_of_ok hcount]
      exact Emits.writeStrValue key (withEntries s d 1 hd) hs hroom hkey

end Steps

mutual

/-- A value is written where the limits admit it and there is room for its bytes. -/
lemma writeValue_of_room : ∀ (value : Tree Scalar String) {s : Encoder}, s.config = c →
    Cleared s → value.Within c.collectionLimit (c.depthLimit - s.depth) →
    Fits c (wireOf c value) → value.All Scalar.Finite (fun _ => True) →
    HasRoom s (spellValue c (wireOf c value)).length →
    Encoder.writeValue value s = (.ok (), wrote s (spellValue c (wireOf c value)))
  | .scalar value, s, hs, _, _, hfits, hfinite, hroom =>
      Emits.scalar value s hs hroom ⟨hfits, hfinite⟩
  | .node kind entries, s, hs, hclear, ⟨hdeep, hlimit, hwithin⟩, hfits, hfinite, hroom => by
      have hbegin : (Encoder.beginContainer kind : Enc Unit) =
          Encoder.enterContainer (kindTag kind) := by
        cases kind <;> rfl
      have hend : (Encoder.endContainer kind : Enc Unit) = Encoder.exitContainer := by
        cases kind <;> rfl
      have hdepth : s.depth < s.config.depthLimit := by
        rw [hs]
        omega
      have hd : s.depth < maxDepth := hdepth.trans_le s.config.depthLimit_le
      have hzero : s.counts[s.depth] = 0 := hclear.counts_zero s.depth hd (Nat.le_refl _)
      obtain ⟨opened, hopened⟩ :
          ∃ opened, opened = { wrote s [kindTag kind] with depth := s.depth + 1 } := ⟨_, rfl⟩
      have hclear₁ : Cleared opened := by
        subst hopened
        refine ⟨hd, fun i hi hle => hclear.counts_zero i hi ?_⟩
        have : s.depth + 1 ≤ i := hle
        omega
      have hroom₁ : HasRoom opened
          (spellEntries c (entries.map (Scalar.wire c) toUtf8) ++ [tagEnd]).length := by
        subst hopened
        exact HasRoom.right [kindTag kind] _ hroom
      have hcounts : opened.counts[s.depth] = 0 := by
        subst hopened
        exact hzero
      have hentries := writeEntries_of_room entries s.depth hd (s := opened) (by rw [hopened])
        (by rw [hopened]; exact hs) hclear₁ (by rw [hcounts, Nat.zero_add]; exact hlimit)
        (by rw [hcounts]; exact Nat.zero_le _)
        (by rw [hopened, ← Nat.sub_sub]; exact hwithin) hfits hfinite (hroom₁.left _ _)
      have hexit := encoder_exitContainer_of_room
        (s := wrote (withEntries opened s.depth entries.length hd)
          (spellEntries c (entries.map (Scalar.wire c) toUtf8)))
        hd (by subst hopened; rfl) (hroom₁.right _ _)
      rw [Encoder.writeValue, hbegin, hend,
        bind_of_ok (enterContainer_of_room hdepth (HasRoom.left [kindTag kind] _ hroom)),
        ← hopened, bind_of_ok hentries, hexit]
      exact congrArg (Prod.mk _)
        (wrote_container s hd rfl hzero (kindTag kind) _ _ (by rw [hopened]))

lemma writeEntries_of_room {kind : Kind} : ∀ (entries : Forest Scalar String kind) {s : Encoder}
    (d : ℕ) (hd : d < maxDepth), s.depth = d + 1 → s.config = c → Cleared s →
    (∀ l, c.collectionLimit = some l → s.counts[d] + entries.length ≤ l) →
    s.counts[d] ≤ s.written → entries.Within c.collectionLimit (c.depthLimit - s.depth) →
    (entries.map (Scalar.wire c) toUtf8).All (WireScalar.Fits c) (fun key => key.length < 2 ^ 64) →
    entries.All Scalar.Finite (fun _ => True) →
    HasRoom s (spellEntries c (entries.map (Scalar.wire c) toUtf8)).length →
    Encoder.writeEntries entries s
      = (.ok (), wrote (withEntries s d entries.length hd)
          (spellEntries c (entries.map (Scalar.wire c) toUtf8)))
  | .nil, s, d, hd, _, _, _, _, _, _, _, _, _ => by
      rw [Encoder.writeEntries]
      simp [wrote, withEntries, Forest.length, Forest.map, spellEntries]
  | .cons key value rest, s, d, hd, hdepth, hs, hclear, hlimit, hwritten,
      ⟨hvalueWithin, hrestWithin⟩, ⟨hkeyFits, hvalueFits, hrestFits⟩,
      ⟨_, hvalueFinite, hrestFinite⟩, hroom => by
      obtain ⟨wire, hwire⟩ : ∃ wire, wire = rest.map (Scalar.wire c) toUtf8 := ⟨_, rfl⟩
      rw [Forest.map, spellEntries, ← hwire] at hroom
      rw [Forest.length] at hlimit
      obtain ⟨byte, bs, hcons, -⟩ := spellEntry_cons (c := c) (key.map toUtf8)
        (wireOf c value)
      have hmax : s.counts[d] + 1 ≤ u64Max := by
        have hlen : s.written + (spellKey c (key.map toUtf8) ++
            (spellValue c (wireOf c value) ++ spellEntries c wire)).length
              ≤ u64Max := hroom.1
        rw [← List.append_assoc, hcons, List.cons_append, List.length_cons] at hlen
        omega
      have hkey := beginEntry_of_room hd hs hdepth hmax
        (fun l hl => by have := hlimit l hl; omega) hkeyFits (hroom.left _ _)
      have hclear₁ : Cleared (wrote (withEntries s d 1 hd) (spellKey c (key.map toUtf8))) := by
        refine ⟨hclear.depth_le, fun i hi hle => ?_⟩
        have hle : s.depth ≤ i := hle
        simp only [wrote, withEntries]
        rw [Vector.getElem_set_ne _ _ (by omega)]
        exact hclear.counts_zero i hi hle
      have hroom₁ : HasRoom (wrote (withEntries s d 1 hd) (spellKey c (key.map toUtf8)))
          (spellValue c (wireOf c value) ++ spellEntries c wire).length :=
        hroom.right _ _
      have hvalue := writeValue_of_room value
        (s := wrote (withEntries s d 1 hd) (spellKey c (key.map toUtf8))) hs hclear₁
        hvalueWithin hvalueFits hvalueFinite (hroom₁.left _ _)
      have hcount : (wrote (wrote (withEntries s d 1 hd) (spellKey c (key.map toUtf8)))
          (spellValue c (wireOf c value))).counts[d] = s.counts[d] + 1 :=
        Vector.getElem_set_self hd
      have hrest := writeEntries_of_room rest d hd
        (s := wrote (wrote (withEntries s d 1 hd) (spellKey c (key.map toUtf8)))
          (spellValue c (wireOf c value)))
        hdepth hs ⟨hclear₁.depth_le, hclear₁.counts_zero⟩
        (fun l hl => by
          have := hlimit l hl
          omega)
        (by
          have hlen := congrArg List.length hcons
          rw [List.length_append, List.length_cons] at hlen
          have hnext : (wrote (wrote (withEntries s d 1 hd) (spellKey c (key.map toUtf8)))
            (spellValue c (wireOf c value))).written
              = s.written + (spellKey c (key.map toUtf8)).length
                + (spellValue c (wireOf c value)).length := rfl
          omega)
        hrestWithin hrestFits hrestFinite
        (by
          rw [← hwire]
          exact hroom₁.right _ _)
      rw [Encoder.writeEntries, bind_of_ok hkey, bind_of_ok hvalue, hrest, wrote_withEntries,
        Forest.length, Nat.add_comm 1 rest.length]
      rfl

end

mutual

/-- An encoder that succeeds has written finite numbers only. -/
lemma finite_of_writeValue : ∀ (value : Tree Scalar String) {s t : Encoder} {u : Unit},
    Encoder.writeValue value s = (.ok u, t) → value.All Scalar.Finite (fun _ => True)
  | .scalar value, s, t, u, h => by
      rw [Encoder.writeValue] at h
      cases value with
      | f64 bits fits =>
          rw [Scalar.write, Encoder.writeF64] at h
          split at h
          · next hfinite => exact hfinite
          · simp [Encoder.fail] at h
      | f32 bits fits =>
          rw [Scalar.write, Encoder.writeF32] at h
          split at h
          · next hfinite => exact hfinite
          · simp [Encoder.fail] at h
      | _ => exact trivial
  | .node kind entries, s, t, u, h => by
      rw [Encoder.writeValue] at h
      obtain ⟨⟨⟩, t₁, -, h⟩ := bind_eq_ok.mp h
      obtain ⟨⟨⟩, t₂, hentries, -⟩ := bind_eq_ok.mp h
      exact finite_of_writeEntries entries hentries

lemma finite_of_writeEntries {kind : Kind} : ∀ (entries : Forest Scalar String kind)
    {s t : Encoder} {u : Unit}, Encoder.writeEntries entries s = (.ok u, t) →
    entries.All Scalar.Finite (fun _ => True)
  | .nil, _, _, _, _ => trivial
  | .cons key value rest, s, t, u, h => by
      rw [Encoder.writeEntries] at h
      obtain ⟨⟨⟩, t₁, -, h⟩ := bind_eq_ok.mp h
      obtain ⟨⟨⟩, t₂, hvalue, hrest⟩ := bind_eq_ok.mp h
      exact ⟨by cases kind <;> trivial, finite_of_writeValue value hvalue,
        finite_of_writeEntries rest hrest⟩

end

/-! ## Lifting what was read -/

/-- A token that a scalar of the wire stands for is that of a scalar which is written as it. -/
lemma WireScalar.exists_scalar {wire : WireScalar} {token : Token} (hfits : wire.Fits c)
    (htoken : wire.token c = some token) :
    ∃ value : Scalar, value.wire c = wire ∧ value.token = token := by
  cases wire with
  | null => exact ⟨.null, rfl, Option.some.inj htoken⟩
  | bool value => exact ⟨.bool value, rfl, Option.some.inj htoken⟩
  | int tag word =>
      obtain ⟨number, hnumber, rfl⟩ := Option.map_eq_some_iff.mp htoken
      cases tag with
      | u64 =>
          obtain ⟨hle, hnumber⟩ := Option.ite_none_right_eq_some.mp hnumber
          obtain rfl := Option.some.inj hnumber
          exact ⟨.u64 word (by omega), rfl, rfl⟩
      | u128 =>
          obtain ⟨hle, hnumber⟩ := Option.ite_none_right_eq_some.mp hnumber
          obtain rfl := Option.some.inj hnumber
          exact ⟨.u128 word (by omega), rfl, rfl⟩
      | i64 =>
          obtain ⟨hle, hnumber⟩ := Option.ite_none_right_eq_some.mp hnumber
          obtain rfl := Option.some.inj hnumber
          have hword : wordOf c 8 (signedWord c 8 word) = word :=
            wordOf_signedWord (by decide) hfits
          exact ⟨.i64 (signedWord c 8 word) hle.1 (by omega), by rw [Scalar.wire, hword], rfl⟩
      | i128 =>
          obtain ⟨hle, hnumber⟩ := Option.ite_none_right_eq_some.mp hnumber
          obtain rfl := Option.some.inj hnumber
          have hword : wordOf c 16 (signedWord c 16 word) = word :=
            wordOf_signedWord (by decide) hfits
          exact ⟨.i128 (signedWord c 16 word) hle.1 (by omega), by rw [Scalar.wire, hword], rfl⟩
  | f64 bits => exact ⟨.f64 bits hfits, rfl, Option.some.inj htoken⟩
  | f32 bits => exact ⟨.f32 bits hfits, rfl, Option.some.inj htoken⟩
  | str bytes =>
      obtain ⟨text, htext, rfl⟩ := Option.map_eq_some_iff.mp htoken
      exact ⟨.str text, by rw [Scalar.wire, fromUtf8_eq_some.mp htext], rfl⟩

/-- What a wire value stands for is the reading of a tree that is written as it. -/
lemma exists_tree {wire : WireValue} {value : Tree Token String} (hfits : Fits c wire)
    (hdecode : decodeValue c wire = some value) :
    ∃ tree : Tree Scalar String, wireOf c tree = wire ∧ tree.map Scalar.token id = value :=
  Tree.exists_map (fun _ _ => WireScalar.exists_scalar)
    (fun _ text _ htext => ⟨text, (fromUtf8_eq_some.mp htext).symm, rfl⟩) wire hfits hdecode

omit [Target] in
/-- What lies at the beginning of an input and may be read. -/
lemma here_new_iff {input : Input} {bs : List UInt8} :
    Tape.Here (Decoder.new input c) bs ↔
      bs <+: input.bytes ∧ ∀ l, c.limit = some l → bs.length ≤ l := by
  have hstop : (Decoder.new input c).cursor + bs.length = bs.length := Nat.zero_add _
  refine and_congr ?_ ?_
  · rw [hstop, slice_eq_some, List.prefix_iff_eq_take]
    refine ⟨fun h => h.2.2.symm, fun h => ⟨Nat.zero_le _, ?_, h.symm⟩⟩
    exact (List.prefix_iff_eq_take.mpr h).length_le
  · rw [hstop]
    rfl

/-- A decoder reads a value from the first `k` bytes of an input exactly if an encoder of the same
configuration writes these bytes for a tree that reads as this value, provided that no number in
it is infinite or not a number: such numbers are read, but never written. -/
theorem readValue_iff_writeValue {input : Input} {value : Tree Token String} {k : ℕ} :
    (value.All TokenFinite (fun _ => True) ∧
      ∃ n s, Decoder.readValue n (Decoder.new input c) = (.ok value, s) ∧ s.cursor = k) ↔
    ∃ (tree : Tree Scalar String) (t : Encoder), tree.map Scalar.token id = value ∧
      Encoder.writeValue tree (Encoder.new c) = (.ok (), t) ∧ t.writer <+: input.bytes ∧
      t.writer.length = k := by
  constructor
  · rintro ⟨hfinite, n, s, hread, rfl⟩
    obtain ⟨wire, hfits, hdecode, hwithin, hhere, rfl⟩ := readValue_new_iff.mp ⟨n, hread⟩
    obtain ⟨tree, rfl, rfl⟩ := exists_tree hfits hdecode
    obtain ⟨hpre, hlimit⟩ := here_new_iff.mp hhere
    have hroom : HasRoom (Encoder.new c) (spellValue c (wireOf c tree)).length := by
      rw [HasRoom, show (Encoder.new c).written = 0 from rfl, Nat.zero_add]
      exact ⟨hpre.length_le.trans input.length_le, hlimit⟩
    have hscalars : tree.All Scalar.Finite (fun _ => True) :=
      (Tree.all_map Scalar.finite_token (fun _ => Iff.rfl) tree).mp hfinite
    exact ⟨tree, _, rfl, writeValue_of_room tree rfl (cleared_new c)
      ((Tree.within_map _ _ _ _ tree).mp hwithin) hfits hscalars hroom, hpre,
      (Nat.zero_add _).symm⟩
  · rintro ⟨tree, t, rfl, hwrite, hpre, rfl⟩
    have hscalars := finite_of_writeValue tree hwrite
    obtain ⟨rfl, hbounds, hfits, hwithin⟩ :=
      writeValue_ok tree (inBounds_new c) (cleared_new c) hwrite
    have hdecode : decodeValue c (wireOf c tree) = some (tree.map Scalar.token id) :=
      Tree.mapOption_map (Scalar.token_wire (c := c)) fromUtf8_toUtf8 tree
    have hhere : Tape.Here (Decoder.new input c) (spellValue c (wireOf c tree)) := by
      refine here_new_iff.mpr ⟨hpre, fun l hl => ?_⟩
      have hle := hbounds.le_limit l hl
      rw [hbounds.written_eq] at hle
      exact hle
    obtain ⟨n, hread⟩ := readValue_new_iff.mpr ⟨wireOf c tree, hfits, hdecode,
      (Tree.within_map _ _ _ _ tree).mpr hwithin, hhere, rfl⟩
    exact ⟨(Tree.all_map Scalar.finite_token (fun _ => Iff.rfl) tree).mpr hscalars, n, _, hread,
      Nat.zero_add _⟩

end RustBinary.Native
