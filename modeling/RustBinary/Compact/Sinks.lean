import RustBinary.Compact.Wire

/-!
# One value on three sinks

`serialize` and `serialize_into_slice` run the encoder behind a `BoundedWriter`, `serialized_size`
runs it on a bare counter.  What each of them comes back with follows from the script of the value.
-/

namespace RustBinary.Compact

open Lib Lib.Act Native
open EncodeWriter (writeAll)
open ContainerWriter (enterContainer exitContainer)

/-! ## The bounded writer -/

namespace BoundedWriter

variable {W : Type} {script : Script UInt8} {w w' : BoundedWriter W} {inner : W}

/-- The state behind `count` more bytes, which the sink has taken. -/
def wrote (w : BoundedWriter W) (inner : W) (count : ℕ) : BoundedWriter W :=
  { w with inner := inner, written := w.written + count }

/-- There is room for `count` more bytes, in `height` more collections. -/
structure Room (w : BoundedWriter W) (count height : ℕ) : Prop where
  written_le : w.written + count ≤ u64Max
  limit : ∀ limit, w.limit = some limit → w.written + count ≤ limit
  depth_le : w.depth + height ≤ w.depthLimit

lemma Room.mono {count count' height height' : ℕ} (h : Room w count height)
    (hcount : count' ≤ count) (hheight : height' ≤ height) : Room w count' height' where
  written_le := by
    have := h.written_le
    omega
  limit limit hlimit := by
    have := h.limit limit hlimit
    omega
  depth_le := by
    have := h.depth_le
    omega

lemma room_wrote {a b height : ℕ} : Room (w.wrote inner a) b height ↔ Room w (a + b) height := by
  constructor
  · rintro ⟨hwritten, hlimit, hdepth⟩
    exact ⟨by rwa [← Nat.add_assoc], fun l hl => by rw [← Nat.add_assoc]; exact hlimit l hl, hdepth⟩
  · rintro ⟨hwritten, hlimit, hdepth⟩
    rw [← Nat.add_assoc] at hwritten
    exact ⟨hwritten, fun l hl => by have := hlimit l hl; rwa [← Nat.add_assoc] at this, hdepth⟩

lemma room_deeper {count height : ℕ} :
    Room { w with depth := w.depth + 1 } count height ↔ Room w count (height + 1) := by
  have hadd : w.depth + 1 + height = w.depth + (height + 1) := by omega
  constructor
  · rintro ⟨hwritten, hlimit, hdepth⟩
    exact ⟨hwritten, hlimit, hadd ▸ hdepth⟩
  · rintro ⟨hwritten, hlimit, hdepth⟩
    exact ⟨hwritten, hlimit, hadd.symm ▸ hdepth⟩

lemma enter_eq_ok {u : Unit} :
    enter w = (.ok u, w') ↔ w.depth < w.depthLimit ∧ w' = { w with depth := w.depth + 1 } := by
  rw [enter, get_bind_run]
  split
  · next h =>
      rw [throw_run]
      exact iff_of_false (by rintro ⟨⟩) fun h' => absurd h'.1 (Nat.not_lt.mpr h)
  · next h =>
      rw [modify_run]
      simp only [Prod.mk.injEq, true_and, Nat.lt_of_not_le h, eq_comm]

lemma exit_run (depth : ℕ) :
    exit { w with depth := depth + 1 } = (.ok (), { w with depth := depth }) := by
  rw [exit, get_bind_run, if_neg (Nat.succ_ne_zero depth)]
  rfl

variable [EncodeWriter W]

lemma write_eq_ok {bytes : List UInt8} {u : Unit} (hlen : bytes.length ≤ u64Max)
    (hroom : Room w 0 0) :
    write bytes w = (.ok u, w') ↔
      Room w bytes.length 0 ∧
        ∃ inner, writeAll bytes w.inner = (.ok (), inner) ∧ w' = w.wrote inner bytes.length := by
  rw [write, if_pos hlen]
  simp only [bind_eq_ok, get_run, Prod.mk.injEq, Outcome.ok.injEq, okOr_eq_ok, atMost_eq_ok]
  constructor
  · rintro ⟨_, _, ⟨rfl, rfl⟩, next, s, ⟨hnext, rfl⟩, _, _, ⟨hlimit, rfl⟩, hforward⟩
    rw [checkedAdd, Option.ite_none_right_eq_some, Option.some.injEq] at hnext
    obtain ⟨hadd, rfl⟩ := hnext
    refine ⟨⟨hadd, hlimit, hroom.depth_le⟩, ?_⟩
    rw [forward] at hforward
    split at hforward <;> cases hforward
    next inner hinner => exact ⟨inner, hinner, rfl⟩
  · rintro ⟨⟨hadd, hlimit, -⟩, inner, hinner, rfl⟩
    refine ⟨_, _, ⟨rfl, rfl⟩, _, _, ⟨if_pos hadd, rfl⟩, (), _, ⟨hlimit, rfl⟩, ?_⟩
    rw [forward, hinner]
    rfl

/-- A script on the sink behind the writer, which takes the texts alone. -/
def plain (script : Script UInt8) : Act W Error Unit := script.run writeAll (pure ()) (pure ())

lemma plain_write (text : List UInt8) (rest : Script UInt8) :
    plain (W := W) (.write text rest) = (do writeAll text; plain rest) := rfl

lemma plain_container (body rest : Script UInt8) :
    plain (W := W) (.container body rest) = (do plain body; plain rest) := by
  rw [plain, Script.run, leaving_pure, pure_bind]
  rfl

/-- A script comes through exactly when there is room for it and the inner sink takes its texts. -/
lemma run_eq_ok {u : Unit} (htexts : ∀ text ∈ script.flat, text.length ≤ u64Max)
    (hroom : Room w 0 0) :
    script.run write enter exit w = (.ok u, w') ↔
      Room w script.bytes.length script.height ∧
        ∃ inner, plain script w.inner = (.ok (), inner) ∧
          w' = w.wrote inner script.bytes.length := by
  induction script generalizing w w' u with
  | done =>
      rw [Script.run, pure_run]
      constructor
      · rintro ⟨⟩
        exact ⟨hroom, w.inner, rfl, rfl⟩
      · rintro ⟨-, inner, hinner, rfl⟩
        cases hinner
        rfl
  | write text rest ih =>
      obtain ⟨htext, hrest⟩ := List.forall_mem_cons.mp htexts
      rw [Script.run, bind_eq_ok, plain_write, Script.bytes, List.length_append, Script.height]
      constructor
      · rintro ⟨_, _, hwrite, hrun⟩
        obtain ⟨hroom', inner, hinner, rfl⟩ := (write_eq_ok htext hroom).mp hwrite
        obtain ⟨hroom'', inner', hplain, rfl⟩ := (ih hrest (room_wrote.mpr hroom')).mp hrun
        refine ⟨room_wrote.mp hroom'', inner', ?_, ?_⟩
        · rw [bind_of_ok hinner]
          exact hplain
        · simp only [wrote, Nat.add_assoc]
      · rintro ⟨hroom', inner', hplain, rfl⟩
        obtain ⟨⟨⟩, inner, hinner, hplain⟩ := bind_eq_ok.mp hplain
        have htextroom : Room w text.length 0 := hroom'.mono (Nat.le_add_right _ _) (Nat.zero_le _)
        refine ⟨(), _, (write_eq_ok htext hroom).mpr ⟨htextroom, inner, hinner, rfl⟩, ?_⟩
        refine (ih hrest (room_wrote.mpr htextroom)).mpr ⟨room_wrote.mpr hroom', inner', hplain, ?_⟩
        simp only [wrote, Nat.add_assoc]
  | container body rest ihbody ih =>
      obtain ⟨hbody, hrest⟩ := List.forall_mem_append.mp htexts
      rw [Script.run, bind_eq_ok, plain_container, Script.bytes, List.length_append, Script.height]
      constructor
      · rintro ⟨_, _, henter, hrun⟩
        obtain ⟨hlt, rfl⟩ := enter_eq_ok.mp henter
        have hdeeper : Room { w with depth := w.depth + 1 } 0 0 :=
          room_deeper.mpr ⟨hroom.written_le, hroom.limit, hlt⟩
        obtain ⟨_, s, hleave, hrun⟩ := bind_eq_ok.mp hrun
        obtain ⟨⟨⟩, t, hinside, hexit⟩ := leaving_eq_ok.mp hleave
        obtain ⟨hroom', inner, hplain, rfl⟩ := (ihbody hbody hdeeper).mp hinside
        have hback : s = w.wrote inner body.bytes.length := by
          have hexit' := exit_run (w := w.wrote inner body.bytes.length) w.depth
          exact congrArg Prod.snd (hexit.symm.trans hexit')
        subst hback
        have hbodyroom := room_deeper.mp hroom'
        obtain ⟨hroom'', inner', hplain', rfl⟩ :=
          (ih hrest (room_wrote.mpr (hbodyroom.mono (Nat.le_refl _) (Nat.zero_le _)))).mp hrun
        have hall := room_wrote.mp hroom''
        refine ⟨⟨hall.written_le, hall.limit, ?_⟩, inner', ?_, ?_⟩
        · have := hall.depth_le
          have := hbodyroom.depth_le
          omega
        · rw [bind_of_ok hplain]
          exact hplain'
        · simp only [wrote, Nat.add_assoc]
      · rintro ⟨hroom', inner', hplain, rfl⟩
        obtain ⟨⟨⟩, inner, hinner, hplain⟩ := bind_eq_ok.mp hplain
        have hbodyroom : Room w body.bytes.length (body.height + 1) :=
          hroom'.mono (Nat.le_add_right _ _) (Nat.le_max_left _ _)
        have hinside := (ihbody (u := ()) hbody
          (room_deeper.mpr (hbodyroom.mono (Nat.zero_le _) (Nat.succ_le_succ (Nat.zero_le _))))).mpr
            ⟨room_deeper.mpr hbodyroom, inner, hinner, rfl⟩
        refine ⟨(), _, enter_eq_ok.mpr ⟨?_, rfl⟩, bind_eq_ok.mpr ⟨(), _,
          leaving_eq_ok.mpr ⟨(), _, hinside, exit_run (w := w.wrote inner body.bytes.length) w.depth⟩,
          ?_⟩⟩
        · have := hbodyroom.depth_le
          omega
        · refine (ih hrest (room_wrote.mpr (hbodyroom.mono (Nat.le_refl _) (Nat.zero_le _)))).mpr
            ⟨room_wrote.mpr (hroom'.mono (Nat.le_refl _) (Nat.le_max_right _ _)), inner', hplain, ?_⟩
          simp only [wrote, Nat.add_assoc]

/-! ### Refusals -/

/-- A vector holds the bytes that count. -/
def Counted (w : BoundedWriter VecWriter) : Prop :=
  w.inner.output.length = w.written ∧ w.written ≤ isizeMax

/-- What is refused is not refused for the overflow of the counter. -/
def Refuses (m : Act (BoundedWriter VecWriter) Error Unit) : Prop :=
  ∀ w, Counted w → (m w).1 ≠ .err (.sizeLimit u64Max) ∧
    ∀ u w', m w = (.ok u, w') → Counted w'

lemma Refuses.bind {m m' : Act (BoundedWriter VecWriter) Error Unit} (hm : Refuses m)
    (hm' : Refuses m') : Refuses (do m; m') := by
  intro w hw
  obtain ⟨hne, hok⟩ := hm w hw
  rw [bind_run]
  rcases h : m w with ⟨u | e | _ | _, t⟩ <;> rw [h] at hne
  · exact hm' t (hok u t h)
  · exact ⟨hne, by rintro _ _ ⟨⟩⟩
  · exact ⟨by rintro ⟨⟩, by rintro _ _ ⟨⟩⟩
  · exact ⟨by rintro ⟨⟩, by rintro _ _ ⟨⟩⟩

lemma refuses_write {text : List UInt8} (htext : text.length ≤ isizeMax) :
    Refuses (write text) := by
  intro w hw
  obtain ⟨hlength, hwritten⟩ := hw
  have hsum : w.written + text.length ≤ u64Max := by
    rw [isizeMax] at hwritten htext
    rw [u64Max]
    omega
  have hadd : checkedAdd w.written text.length = some (w.written + text.length) := if_pos hsum
  rw [write, if_pos (htext.trans (by decide)), get_bind_run, hadd, okOr_some, pure_bind_run,
    bind_run]
  rcases atMost_cases w.limit (w.written + text.length) Error.sizeLimit with
    ⟨-, h⟩ | ⟨limit, -, hlt, h⟩
  · rw [h, pure_run]
    dsimp only
    have hinner : writeAll text w.inner = if w.inner.output.length + text.length ≤ isizeMax then
        (.ok (), ⟨w.inner.output ++ text⟩) else (.panic, w.inner) := by
      change (get >>= _ : Act VecWriter Error Unit) w.inner = _
      rw [get_bind_run]
      split <;> rfl
    rw [forward, hinner]
    split_ifs with hfits
    · refine ⟨by rintro ⟨⟩, ?_⟩
      rintro _ _ ⟨⟩
      exact ⟨by simp [hlength], by rwa [hlength] at hfits⟩
    · exact ⟨by rintro ⟨⟩, by rintro _ _ ⟨⟩⟩
  · rw [h, throw_run]
    refine ⟨?_, by rintro _ _ ⟨⟩⟩
    rintro ⟨⟩
    exact absurd hsum (Nat.not_le.mpr hlt)

lemma refuses_run {script : Script UInt8}
    (htexts : ∀ text ∈ script.flat, text.length ≤ isizeMax) :
    Refuses (script.run write enter exit) := by
  induction script with
  | done =>
      intro w hw
      refine ⟨by rintro ⟨⟩, ?_⟩
      rintro _ _ ⟨⟩
      exact hw
  | write text rest ih =>
      obtain ⟨htext, hrest⟩ := List.forall_mem_cons.mp htexts
      exact (refuses_write htext).bind (ih hrest)
  | container body rest ihbody ih =>
      obtain ⟨hbody, hrest⟩ := List.forall_mem_append.mp htexts
      have henter : Refuses enter := by
        intro w hw
        rw [enter, get_bind_run]
        split
        · exact ⟨by rintro ⟨⟩, by rintro _ _ ⟨⟩⟩
        · refine ⟨by rintro ⟨⟩, ?_⟩
          rintro _ _ ⟨⟩
          exact hw
      have hexit : Refuses exit := by
        intro w hw
        rw [exit, get_bind_run]
        split
        · exact ⟨by rintro ⟨⟩, by rintro _ _ ⟨⟩⟩
        · refine ⟨by rintro ⟨⟩, ?_⟩
          rintro _ _ ⟨⟩
          exact hw
      have hleaving : Refuses ((body.run write enter exit).leaving exit) := by
        intro w hw
        obtain ⟨hne, hok⟩ := ihbody hbody w hw
        refine ⟨?_, fun u w' h => ?_⟩
        · rcases h : body.run write enter exit w with ⟨u | e | _ | _, t⟩
          · rw [leaving_of_ok h, bind_pure_unit]
            exact (hexit t (hok u t h)).1
          · rw [h] at hne
            rw [leaving_of_err h, exit, bind_assoc, get_bind_run]
            split
            · rintro ⟨⟩
            · exact hne
          · rw [leaving_of_panic h]
            rintro ⟨⟩
          · rw [leaving, h]
            rintro ⟨⟩
        · obtain ⟨v, t, hm, hlast⟩ := leaving_eq_ok.mp h
          exact (hexit t (hok _ t hm)).2 v w' hlast
      exact henter.bind (hleaving.bind (ih hrest))

end BoundedWriter

/-! ## Plain sinks -/

namespace Plain

open BoundedWriter (plain plain_write plain_container)

variable {script : Script UInt8}

/-- A vector takes what fits `isize::MAX` bytes. -/
lemma vec_eq_ok {output : List UInt8} {u : Unit} {w : VecWriter}
    (houtput : output.length ≤ isizeMax) :
    plain script ⟨output⟩ = (.ok u, w) ↔
      output.length + script.bytes.length ≤ isizeMax ∧ w = ⟨output ++ script.bytes⟩ := by
  induction script generalizing output u w with
  | done =>
      constructor
      · rintro ⟨⟩
        exact ⟨houtput, by simp [Script.bytes]⟩
      · rintro ⟨-, rfl⟩
        simp only [Script.bytes, List.append_nil]
        rfl
  | write text rest ih =>
      have hput : writeAll text (⟨output⟩ : VecWriter) =
          if output.length + text.length ≤ isizeMax then (.ok (), ⟨output ++ text⟩)
          else (.panic, ⟨output⟩) := by
        change (get >>= _ : Act VecWriter Error Unit) _ = _
        rw [get_bind_run]
        split <;> rfl
      rw [plain_write, bind_run, hput, Script.bytes, List.length_append]
      split_ifs with hfits
      · dsimp only
        rw [ih (by rwa [List.length_append]), List.length_append, List.append_assoc, Nat.add_assoc]
      · refine iff_of_false (by rintro ⟨⟩) ?_
        rintro ⟨hle, -⟩
        omega
  | container body rest ihbody ih =>
      rw [plain_container, bind_eq_ok, Script.bytes, List.length_append]
      constructor
      · rintro ⟨_, _, h, h'⟩
        obtain ⟨hle, rfl⟩ := (ihbody houtput).mp h
        obtain ⟨hle', rfl⟩ := (ih (by rwa [List.length_append])).mp h'
        rw [List.length_append] at hle'
        exact ⟨by omega, by rw [List.append_assoc]⟩
      · rintro ⟨hle, rfl⟩
        refine ⟨(), _, (ihbody houtput).mpr ⟨by omega, rfl⟩, ?_⟩
        refine (ih ?_).mpr ⟨?_, by rw [List.append_assoc]⟩
        · rw [List.length_append]
          omega
        · rw [List.length_append]
          omega

/-- A slice takes everything that can be counted. -/
lemma slice_run {output xs : List UInt8} (h : xs.length + script.bytes.length ≤ u64Max) :
    plain script (SliceWriter.after output xs) =
      (.ok (), SliceWriter.after output (xs ++ script.bytes)) := by
  induction script generalizing xs with
  | done => simp [plain, Script.run, Script.bytes]
  | write text rest ih =>
      rw [Script.bytes, List.length_append] at h
      rw [plain_write, bind_of_ok (SliceWriter.writeAll_after (by omega)),
        ih (by rw [List.length_append]; omega), List.append_assoc]
      rfl
  | container body rest ihbody ih =>
      rw [Script.bytes, List.length_append] at h
      rw [plain_container, bind_of_ok (ihbody (by omega)), ih (by rw [List.length_append]; omega),
        List.append_assoc]
      rfl

/-- A counter takes everything that can be counted. -/
lemma count_run {w : CountWriter} (htexts : ∀ text ∈ script.flat, text.length ≤ u64Max)
    (hw : w.written ≤ u64Max) :
    (w.written + script.bytes.length ≤ u64Max ∧
        plain script w = (.ok (), ⟨w.written + script.bytes.length⟩)) ∨
      (u64Max < w.written + script.bytes.length ∧
        (plain script w).1 = .err (.sizeLimit u64Max)) := by
  induction script generalizing w with
  | done => exact .inl ⟨hw, rfl⟩
  | write text rest ih =>
      obtain ⟨htext, hrest⟩ := List.forall_mem_cons.mp htexts
      have hput := CountWriter.writeAll_run (w := w) htext
      rw [plain_write, Script.bytes, List.length_append]
      split_ifs at hput with hfits
      · rw [bind_of_ok hput, ← Nat.add_assoc]
        exact ih hrest hfits
      · refine .inr ⟨by omega, ?_⟩
        rw [bind_run, hput]
  | container body rest ihbody ih =>
      obtain ⟨hbody, hrest⟩ := List.forall_mem_append.mp htexts
      rw [plain_container, Script.bytes, List.length_append]
      rcases ihbody hbody hw with ⟨hle, h⟩ | ⟨hlt, h⟩
      · rw [bind_of_ok h, ← Nat.add_assoc]
        exact ih hrest hle
      · refine .inr ⟨by omega, ?_⟩
        rw [bind_run]
        rcases hrun : plain body w with ⟨u | e | _ | _, t⟩ <;> rw [hrun] at h <;> cases h
        rfl

end Plain

/-! ## The entry points -/

section EntryPoints

variable {config : Config} {t : CompactType} {value : t.Value}

/-- The wire of a value fits the byte limit and a vector, and its collections the depth limit. -/
structure Fits (config : Config) (t : CompactType) (value : t.Value) : Prop where
  limit : ∀ limit, config.limit = some limit → (t.wire value).length ≤ limit
  length_le : (t.wire value).length ≤ isizeMax
  nesting_le : t.nesting value ≤ config.depthLimit

lemma room_new {W : Type} (inner : W) (config : Config) :
    (BoundedWriter.new inner config).Room 0 0 :=
  ⟨Nat.zero_le _, fun _ _ => Nat.zero_le _, Nat.zero_le _⟩

lemma room_new_iff {W : Type} {inner : W} (hlen : (t.wire value).length ≤ isizeMax) :
    (BoundedWriter.new inner config).Room (t.wire value).length (t.nesting value) ↔
      Fits config t value := by
  have hwritten : (BoundedWriter.new inner config).written = 0 := rfl
  have hdepth : (BoundedWriter.new inner config).depth = 0 := rfl
  constructor
  · intro hroom
    refine ⟨fun limit hl => ?_, hlen, ?_⟩
    · have := hroom.limit limit hl
      rwa [hwritten, Nat.zero_add] at this
    · have := hroom.depth_le
      rwa [hdepth, Nat.zero_add] at this
  · intro hfits
    refine ⟨?_, fun limit hl => ?_, ?_⟩
    · rw [hwritten, Nat.zero_add]
      exact hlen.trans (by decide)
    · rw [hwritten, Nat.zero_add]
      exact hfits.limit limit hl
    · rw [hdepth, Nat.zero_add]
      exact hfits.nesting_le

variable [Target]

lemma serialize_eq_ok_iff_encode {bytes : List UInt8} :
    serialize config t value = .ok bytes ↔
      ∃ u w, t.encode value (BoundedWriter.new (⟨[]⟩ : VecWriter) config) = (.ok u, w) ∧
        w.inner.output = bytes := by
  rw [serialize]
  rcases t.encode value (BoundedWriter.new (⟨[]⟩ : VecWriter) config) with ⟨u | e | _ | _, w⟩ <;>
    simp

lemma serialize_eq_err_iff_encode {e : Error} :
    serialize config t value = .err e ↔
      (t.encode value (BoundedWriter.new (⟨[]⟩ : VecWriter) config)).1 = .err e := by
  rw [serialize]
  rcases t.encode value (BoundedWriter.new (⟨[]⟩ : VecWriter) config) with ⟨u | e | _ | _, w⟩ <;>
    simp

end EntryPoints

section Values

variable [Platform] {config : Config} {t : CompactType} {value : t.Value} {output : List UInt8}

/-- The script of a value, on the sinks of the entry points. -/
lemma exists_script (haccepted : t.Accepted) (h : t.Allocated value) :
    ∃ script : Script UInt8, script.bytes = t.wire value ∧ script.height = t.nesting value ∧
      (∀ text ∈ script.flat, text.length ≤ isizeMax) ∧
      (∀ (W : Type) [EncodeWriter W], t.encode value =
        script.run (BoundedWriter.write (W := W)) BoundedWriter.enter BoundedWriter.exit) ∧
      t.encode value = BoundedWriter.plain (W := CountWriter) script := by
  obtain ⟨script, hrun, hbytes, hheight, hflat⟩ := t.scripted haccepted value h
  exact ⟨script, hbytes, hheight, hflat, fun W _ => hrun (BoundedWriter W), hrun CountWriter⟩

lemma serialize_eq_ok (haccepted : t.Accepted) (h : t.Allocated value) {bytes : List UInt8} :
    serialize config t value = .ok bytes ↔ Fits config t value ∧ bytes = t.wire value := by
  obtain ⟨script, hbytes, hheight, hflat, hrun, -⟩ := exists_script haccepted h
  have hiff := fun u w => @BoundedWriter.run_eq_ok VecWriter script _ w _ u
    (fun text htext => (hflat text htext).trans (by decide)) (room_new ⟨[]⟩ config)
  have hvec := fun u w => @Plain.vec_eq_ok script [] u w (Nat.zero_le _)
  simp only [List.length_nil, Nat.zero_add, List.nil_append] at hvec
  rw [serialize_eq_ok_iff_encode, hrun VecWriter]
  simp only [hiff, hbytes, hheight]
  constructor
  · rintro ⟨u, w, ⟨hroom, inner, hplain, rfl⟩, rfl⟩
    obtain ⟨hlen, rfl⟩ := (hvec () inner).mp hplain
    rw [hbytes] at hlen
    exact ⟨(room_new_iff hlen).mp hroom, hbytes⟩
  · rintro ⟨hfits, rfl⟩
    have hlen := hfits.length_le
    exact ⟨(), _, ⟨(room_new_iff hlen).mpr hfits, _,
      (hvec () _).mpr ⟨by rwa [hbytes], rfl⟩, rfl⟩, hbytes⟩

lemma serialize_ne_err (haccepted : t.Accepted) (h : t.Allocated value) :
    serialize config t value ≠ .err (.sizeLimit u64Max) := by
  obtain ⟨script, -, -, hflat, hrun, -⟩ := exists_script haccepted h
  rw [Ne, serialize_eq_err_iff_encode, hrun VecWriter]
  exact (BoundedWriter.refuses_run hflat _ ⟨rfl, Nat.zero_le _⟩).1

lemma serializedSize_eq (haccepted : t.Accepted) (h : t.Allocated value) :
    serializedSize t value = if (t.wire value).length ≤ u64Max then .ok (t.wire value).length
      else .err (.sizeLimit u64Max) := by
  obtain ⟨script, hbytes, -, hflat, -, hcount⟩ := exists_script haccepted h
  have hrun := Plain.count_run (w := CountWriter.new)
    (fun text htext => (hflat text htext).trans (by decide)) (Nat.zero_le _)
  rw [show CountWriter.new.written = 0 from rfl, Nat.zero_add, hbytes, ← hcount] at hrun
  rw [serializedSize]
  rcases hrun with ⟨hle, h⟩ | ⟨hlt, h⟩
  · rw [if_pos hle, h]
    rfl
  · rw [if_neg (Nat.not_le.mpr hlt)]
    rcases hrun : (t.encode value CountWriter.new) with ⟨u | e | _ | _, w⟩ <;>
      rw [hrun] at h <;> cases h
    rfl

lemma serializeIntoSlice_of_fits (haccepted : t.Accepted) (h : t.Allocated value)
    (hfits : Fits config t value) :
    serializeIntoSlice config t value output =
      (if output.length < (t.wire value).length then
        .err (.bufferTooSmall (t.wire value).length output.length) else .ok (t.wire value).length,
      (t.wire value).take output.length ++ output.drop (t.wire value).length) := by
  obtain ⟨script, hbytes, hheight, hflat, hrun, -⟩ := exists_script haccepted h
  have hlen := hfits.length_le
  have hplain := @Plain.slice_run script output [] (by
    rw [hbytes, List.length_nil, Nat.zero_add]
    exact hlen.trans (by decide))
  have hok := (@BoundedWriter.run_eq_ok SliceWriter script _ _ _ ()
    (fun text htext => (hflat text htext).trans (by decide))
    (room_new (SliceWriter.new output) config)).mpr
      ⟨by rw [hbytes, hheight]; exact (room_new_iff hlen).mpr hfits, _,
        (SliceWriter.new_eq_after output) ▸ hplain, rfl⟩
  rw [← hrun SliceWriter, List.nil_append, hbytes] at hok
  have hlength := SliceWriter.length_after output (t.wire value)
  rw [serializeIntoSlice, hok]
  dsimp only [Outcome.ok_bind, BoundedWriter.wrote]
  rw [SliceWriter.finish, hlength]
  rfl

end Values

/-! ## Agreement -/

/-- The three entry points agree on a value: on the count of its bytes, on the bytes, and on the
error. -/
structure SinksAgree [Target] (config : Config) (t : CompactType) (value : t.Value) : Prop where
  size_iff : ∀ n, serializedSize t value = .ok n ↔
    ∃ bytes, serialize config t value = .ok bytes ∧ bytes.length = n
  slice : ∀ bytes output, serialize config t value = .ok bytes → bytes.length ≤ output.length →
    serializeIntoSlice config t value output =
      (.ok bytes.length, bytes ++ output.drop bytes.length)
  small : ∀ bytes output, serialize config t value = .ok bytes → output.length < bytes.length →
    (serializeIntoSlice config t value output).1 =
      .err (.bufferTooSmall bytes.length output.length)
  error : (∀ bytes, serialize config t value ≠ .ok bytes) →
    ∃ e, serialize config t value = .err e ∧ serializedSize t value = .err e ∧
      ∀ output, (serializeIntoSlice config t value output).1 = .err e

/-- The entry points agree exactly on the values that `serialize` takes: the counter knows no
limit. -/
theorem sinks_agree_iff [Platform] (config : Config) (e : Encodable) (value : e.type.Value)
    (h : e.type.Allocated value) :
    SinksAgree config e.type value ↔ Fits config e.type value := by
  have hserialize := fun bytes => @serialize_eq_ok _ config _ _ e.accepted h bytes
  have hsize := serializedSize_eq e.accepted h
  constructor
  · intro hagree
    by_contra hfits
    have hno : ∀ bytes, serialize config e.type value ≠ .ok bytes :=
      fun bytes hok => hfits ((hserialize bytes).mp hok).1
    obtain ⟨error, herr, hcount, -⟩ := hagree.error hno
    rw [hsize] at hcount
    split_ifs at hcount with hle
    cases hcount
    exact serialize_ne_err e.accepted h herr
  · intro hfits
    have hok : serialize config e.type value = .ok (e.type.wire value) :=
      (hserialize _).mpr ⟨hfits, rfl⟩
    have hle : (e.type.wire value).length ≤ u64Max := hfits.length_le.trans (by decide)
    have hslice := fun output => @serializeIntoSlice_of_fits _ _ _ _ output e.accepted h hfits
    refine ⟨fun n => ?_, fun bytes output hbytes hroom => ?_, fun bytes output hbytes hroom => ?_,
      fun hno => absurd hok (hno _)⟩
    · rw [hsize, if_pos hle, hok]
      simp
    · obtain ⟨-, rfl⟩ := (hserialize bytes).mp hbytes
      rw [hslice, if_neg (Nat.not_lt.mpr hroom), List.take_of_length_le hroom]
    · obtain ⟨-, rfl⟩ := (hserialize bytes).mp hbytes
      rw [hslice, if_pos hroom]

section Samples

attribute [local instance] Platform.sample

/-- `Vec<u8>`. -/
def byteVec : Encodable where
  type := .vec (.scalar .u8)
  accepted := trivial

def threeBytes : byteVec.type.Value := ([1, 2, 3] : List UInt8)

theorem sinks_agree_bytes : SinksAgree .standard byteVec.type threeBytes := by
  refine (sinks_agree_iff .standard byteVec threeBytes ⟨⟨by decide, by decide⟩, ?_⟩).mpr
    ⟨?_, by decide, by decide⟩
  · intro byte _
    trivial
  · rintro limit ⟨⟩
    decide

/-- The counter has no depth limit. -/
theorem sinks_disagree_depth :
    serializedSize byteVec.type [] = .ok 1 ∧
      serialize (Config.standard.withDepthLimit 0) byteVec.type [] =
        .err (.custom "compact encode nesting depth limit exceeded") ∧
      ¬ SinksAgree (Config.standard.withDepthLimit 0) byteVec.type [] := by
  have hsize : serializedSize byteVec.type [] = .ok 1 := by decide +kernel
  have hserialize : serialize (Config.standard.withDepthLimit 0) byteVec.type [] =
      .err (.custom "compact encode nesting depth limit exceeded") := by decide +kernel
  refine ⟨hsize, hserialize, fun h => ?_⟩
  obtain ⟨bytes, hbytes, -⟩ := (h.size_iff 1).mp hsize
  rw [hserialize] at hbytes
  cases hbytes

end Samples

end RustBinary.Compact
