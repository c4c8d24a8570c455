import RustBinary.Native.Skip

/-!
# The limits of the configuration

The limits are checked where bytes are taken, where a container is entered and where an entry ends.
Skipping a value takes the same bytes on a path of its own: it goes over heads, entries and
terminators without these checks.  The calls keep within the limits as long as the checks would have
passed on that path too.
-/

namespace RustBinary.Native

open Lib Lib.Act Decoder

/-- A container that has been entered, with the values passed in it; a key counts as a value. -/
structure OpenContainer where
  kind : Kind
  items : ℕ
deriving DecidableEq, Repr

namespace OpenContainer

/-- The entries that have been completed. -/
def entries (c : OpenContainer) : ℕ :=
  match c.kind with
  | .array => c.items
  | .object => c.items / 2

lemma entries_le_items (c : OpenContainer) : c.entries ≤ c.items := by
  rw [entries]
  split
  · exact Nat.le_refl _
  · exact Nat.div_le_self _ _

/-- One more value has been passed. -/
def pass (c : OpenContainer) : OpenContainer := { c with items := c.items + 1 }

end OpenContainer

/-- `s` keeps within the limits of the configuration `c`. -/
structure WithinLimits (c : Config) (s : Decoder) : Prop where
  under : s.config = c
  cursor_le : ∀ l, c.limit = some l → s.cursor ≤ l
  depth_le : s.depth ≤ c.depthLimit
  counts_le : ∀ l, c.collectionLimit = some l → ∀ (i : ℕ) (hi : i < maxDepth), s.counts[i] ≤ l

lemma withinLimits_new (input : Input) (c : Config) : WithinLimits c (new input c) :=
  ⟨rfl, fun _ _ => Nat.zero_le _, Nat.zero_le _, fun _ _ _ hi =>
    (Vector.getElem_replicate hi).trans_le (Nat.zero_le _)⟩

section Limits

variable [Target] {c : Config} {s t : Decoder}

/-! ## Inside a value -/

/-- `Inside s opened t`: the tokens from `s` up to `t` have entered the containers `opened`, the
innermost one first, and have left all others. -/
inductive Inside (s : Decoder) : List OpenContainer → Decoder → Prop
  | first {kind : Kind} {t : Decoder} (h : takeToken s = (.ok (kindToken kind), t)) :
      Inside s [⟨kind, 0⟩] t
  | value {container : OpenContainer} {outer : List OpenContainer} {t u : Decoder} {token : Token}
      (hin : Inside s (container :: outer) t) (h : readToken t = (.ok token, u))
      (hkind : tokenKind token = none) : Inside s (container.pass :: outer) u
  | enter {opened : List OpenContainer} {t u : Decoder} {kind : Kind} (hin : Inside s opened t)
      (h : readToken t = (.ok (kindToken kind), u)) : Inside s (⟨kind, 0⟩ :: opened) u
  | leave {inner container : OpenContainer} {outer : List OpenContainer} {t : Decoder}
      (hin : Inside s (inner :: container :: outer) t) (h : next t = some tagEnd) :
      Inside s (container.pass :: outer) (after t 1)

lemma Inside.ne_nil {opened : List OpenContainer} (h : Inside s opened t) : opened ≠ [] := by
  cases h <;> simp

/-- The rounds of the loop of `skip_value` are at the positions inside the value. -/
lemma skipRound_inside {opened : List OpenContainer} {k : ℕ} {u : Decoder} (hin : Inside s opened t)
    (h : skipRound opened.length t = (.ok (.inl k), u)) :
    ∃ opened', opened'.length = k ∧ Inside s opened' u := by
  rw [skipRound.eq_def, bind_eq_ok] at h
  obtain ⟨byte, v, hpeek, h⟩ := h
  obtain ⟨hnext, rfl⟩ := peekByte_eq_ok.mp hpeek
  split at h
  · next hend =>
      rw [bind_of_ok (bumpCursor_of_next hnext)] at h
      rw [hend] at hnext
      cases opened with
      | nil => exact absurd rfl hin.ne_nil
      | cons inner rest =>
          cases rest with
          | nil => cases h
          | cons container outer =>
              simp only [List.length_cons, pure_run, Prod.mk.injEq, Outcome.ok.injEq,
                Sum.inl.injEq] at h
              obtain ⟨rfl, rfl⟩ := h
              exact ⟨_, rfl, hin.leave hnext⟩
  · obtain ⟨token, w, hread, h⟩ := bind_eq_ok.mp h
    cases hkind : tokenKind token with
    | some kind =>
        obtain rfl := tokenKind_eq_some.mp hkind
        have hopen : (if opened.length + 1 ≤ u64Max then pure (.inl (opened.length + 1)) else panic
            : Dec (ℕ ⊕ Unit)) w = (.ok (.inl k), u) := by
          cases kind <;> exact h
        split at hopen
        · simp only [pure_run, Prod.mk.injEq, Outcome.ok.injEq, Sum.inl.injEq] at hopen
          obtain ⟨rfl, rfl⟩ := hopen
          exact ⟨_, rfl, hin.enter hread⟩
        · cases hopen
    | none =>
        have hpure : (pure (.inl opened.length) : Dec (ℕ ⊕ Unit)) w = (.ok (.inl k), u) := by
          cases token with
          | beginArray | beginObject => simp [tokenKind] at hkind
          | _ => exact h
        simp only [pure_run, Prod.mk.injEq, Outcome.ok.injEq, Sum.inl.injEq] at hpure
        obtain ⟨rfl, rfl⟩ := hpure
        cases opened with
        | nil => exact absurd rfl hin.ne_nil
        | cons container outer => exact ⟨container.pass :: outer, rfl, hin.value hread hkind⟩

/-! ## The property and the condition -/

/-- No container that is gone over inside the value at `s` is too deep or has too many entries. -/
def NestsWithin (s : Decoder) : Prop :=
  ∀ opened t, Inside s opened t → s.depth + opened.length ≤ s.config.depthLimit ∧
    ∀ l, s.config.collectionLimit = some l → ∀ container ∈ opened, container.entries ≤ l

/-- A call that succeeds leaves the decoder within its limits, and one that skips a value has not
gone over more than they admit. -/
def Honours (call : Call) (s : Decoder) : Prop :=
  ∀ answer t, step call s = (.ok answer, t) →
    WithinLimits s.config t ∧ (call = .skipValue → NestsWithin s)

/-- The decoder at `t`, had the containers `opened` been entered by calls and all entries but the
last been counted. -/
def standing (opened : List OpenContainer) (t : Decoder) : Decoder :=
  match opened with
  | [] => t
  | container :: outer =>
      { t with
        depth := t.depth + outer.length + 1
        counts := t.counts.setIfInBounds (t.depth + outer.length) (container.entries - 1) }

/-- What the calls that read a container check at `t` inside of the containers `opened`. -/
structure Passes (opened : List OpenContainer) (t : Decoder) : Prop where
  terminator : next t = some tagEnd → (exitContainer (standing opened t)).1 = .ok ()
  head : ∀ kind u, readToken t = (.ok (kindToken kind), u) →
    (pushFrame (standing opened u)).1 = .ok ()
  entry : ∀ container outer, opened = container :: outer → 0 < container.entries →
    (countSep (standing opened t)).1 = .ok ()

/-- The condition on a call: a value that is skipped would pass the checks of the calls that read
it, and a mark to go back to is within the limits. -/
def Admits : Call → Decoder → Prop
  | .skipValue, s =>
      (∀ kind t, takeToken s = (.ok (kindToken kind), t) → (pushFrame t).1 = .ok ()) ∧
        ∀ opened t, Inside s opened t → Passes opened t
  | .restore mark, s =>
      (∀ l, s.config.limit = some l → mark.pos ≤ l) ∧ mark.depth ≤ s.config.depthLimit
  | _, _ => True

/-! ## What the calls keep -/

omit [Target] in
lemma reads_within : Reads fun _ m => Moves (fun s t => WithinLimits c s → WithinLimits c t) m := by
  refine reads_moves (fun _ h => h) (fun _ _ _ h1 h2 h => h2 (h1 h)) ?_ ?_ ?_
  · exact fun s e h => ⟨h.under, h.cursor_le, h.depth_le, h.counts_le⟩
  · exact fun s n hn h => ⟨h.under, fun l hl => hn l (by rw [h.under, hl]), h.depth_le, h.counts_le⟩
  · exact fun s token h => ⟨h.under, h.cursor_le, h.depth_le, h.counts_le⟩

omit [Target] in
lemma guarded_within :
    Guarded fun _ m => Moves (fun s t => WithinLimits c s → WithinLimits c t) m := by
  refine guarded_moves reads_within ?_ ?_
  · intro s hlt h
    rw [h.under] at hlt
    exact ⟨h.under, h.cursor_le, hlt, h.counts_le⟩
  · intro s index count hi hd hle h
    refine ⟨h.under, h.cursor_le, h.depth_le, fun l hl i hi' => ?_⟩
    simp only [Vector.getElem_set]
    split
    · exact hle l (by rw [h.under, hl])
    · exact h.counts_le l hl i hi'

omit [Target] in
lemma within_popFrame : Moves (fun s t => WithinLimits c s → WithinLimits c t) popFrame := by
  intro s h
  rcases popFrame_cases s with ⟨d, hd, hdepth, heq⟩ | ⟨-, heq⟩
  · rw [heq]
    have hle := h.depth_le
    refine ⟨h.under, h.cursor_le, by simp only; omega, fun l hl i hi => ?_⟩
    simp only [Vector.getElem_set]
    split
    · exact Nat.zero_le _
    · exact h.counts_le l hl i hi
  · rw [heq]
    exact h

omit [Target] in
lemma within_restore {mark : Mark} (hs : WithinLimits c s)
    (hpos : ∀ l, c.limit = some l → mark.pos ≤ l) (hdepth : mark.depth ≤ c.depthLimit) :
    WithinLimits c (restore mark s).2 := by
  refine ⟨hs.under, hpos, (Nat.min_le_left _ _).trans hdepth, fun l hl i hi => ?_⟩
  simp only [restore, modify_run, getElem_clearFrom]
  split
  · exact hs.counts_le l hl i hi
  · exact Nat.zero_le _

/-- Every mark that `save` gives within the limits may be gone back to. -/
lemma admits_saved {mark : Mark} {u : Decoder} (hs : WithinLimits s.config s)
    (h : step .save s = (.ok (.mark mark), t)) (hu : u.config = s.config) :
    Admits (.restore mark) u := by
  cases h
  refine ⟨fun l hl => hs.cursor_le l (hu ▸ hl), ?_⟩
  rw [hu]
  exact (Nat.mod_le _ _).trans hs.depth_le

/-! ## Going over a value -/

lemma within_readToken {token : Token} {u : Decoder} (ht : WithinLimits c t)
    (h : readToken t = (.ok token, u)) : WithinLimits c u := by
  have hmoves := reads_within.readToken t ht
  rwa [h] at hmoves

lemma within_takeToken {token : Token} {u : Decoder} (ht : WithinLimits c t)
    (h : takeToken t = (.ok token, u)) : WithinLimits c u := by
  have hmoves := reads_within.takeToken t ht
  rwa [h] at hmoves

/-- What reading a token leaves alone, and that it does not go back. -/
structure Onward (s t : Decoder) : Prop where
  input_eq : t.input = s.input
  config_eq : t.config = s.config
  depth_eq : t.depth = s.depth
  cursor_le : s.cursor ≤ t.cursor

omit [Target] in
lemma Onward.trans {u : Decoder} (h : Onward s t) (h' : Onward t u) : Onward s u :=
  ⟨h'.input_eq.trans h.input_eq, h'.config_eq.trans h.config_eq, h'.depth_eq.trans h.depth_eq,
    h.cursor_le.trans h'.cursor_le⟩

omit [Target] in
lemma reads_onward : Reads fun _ m => Moves Onward m :=
  reads_moves (fun _ => ⟨rfl, rfl, rfl, Nat.le_refl _⟩) (fun _ _ _ h h' => h.trans h')
    (fun _ _ => ⟨rfl, rfl, rfl, Nat.le_refl _⟩)
    (fun _ _ _ => ⟨rfl, rfl, rfl, Nat.le_add_right _ _⟩)
    fun _ _ => ⟨rfl, rfl, rfl, Nat.le_refl _⟩

lemma onward_readToken {token : Token} {u : Decoder} (h : readToken t = (.ok token, u)) :
    Onward t u := by
  have hmoves := reads_onward.readToken t
  rwa [h] at hmoves

/-- The positions inside a value are behind its first token, in the same containers. -/
lemma Inside.onward {opened : List OpenContainer} (hin : Inside s opened t) : Onward s t := by
  induction hin with
  | first h =>
      have hmoves := reads_onward.takeToken s
      rwa [h] at hmoves
  | value hin h hkind ih => exact ih.trans (onward_readToken h)
  | enter hin h ih => exact ih.trans (onward_readToken h)
  | leave hin h ih => exact ih.trans ⟨rfl, rfl, rfl, Nat.le_add_right _ _⟩

omit [Target] in
lemma lt_of_pushFrame (h : (pushFrame t).1 = .ok ()) : t.depth < t.config.depthLimit := by
  rcases hrun : pushFrame t with ⟨o, u⟩
  rw [hrun] at h
  cases h
  exact (pushFrame_eq_ok.mp hrun).1

omit [Target] in
/-- `exit_container` holds the terminator against the byte limit. -/
lemma cursor_lt_of_exitContainer {l : ℕ} (h : (exitContainer t).1 = .ok ())
    (hl : t.config.limit = some l) : t.cursor < l := by
  rw [exitContainer, get_bind_run] at h
  split at h
  · cases h
  · obtain ⟨terminator, u, hbyte, -⟩ := bind_fst_eq_ok.mp h
    obtain ⟨bytes, v, htake, -⟩ := bind_eq_ok.mp hbyte
    rcases take_cases t 1 with ⟨_, hle, -⟩ | ⟨e, heq⟩
    · exact hle l hl
    · rw [orFail_eq_ok, heq] at htake
      cases htake

lemma Passes.cursor_lt {opened : List OpenContainer} {l : ℕ} (h : Passes opened t)
    (hend : next t = some tagEnd) (hl : t.config.limit = some l) : t.cursor < l := by
  cases opened with
  | nil => exact cursor_lt_of_exitContainer (h.terminator hend) hl
  | cons container outer =>
      exact cursor_lt_of_exitContainer (t := standing (container :: outer) t) (h.terminator hend) hl

omit [Target] in
/-- The counter of `container_sep` is held against the collection limit. -/
lemma entries_le_of_countSep {container : OpenContainer} {outer : List OpenContainer} {l : ℕ}
    (h : (countSep (standing (container :: outer) t)).1 = .ok ())
    (hl : t.config.collectionLimit = some l) : container.entries ≤ l := by
  rcases countSep_cases (standing (container :: outer) t) with
    ⟨index, hi, hd, hle, -⟩ | ⟨e, heq⟩ | ⟨-, heq⟩
  · obtain rfl : t.depth + outer.length = index := Nat.succ_injective hd
    have hcount := hle l hl
    simp only [standing, Vector.getElem_setIfInBounds_self] at hcount
    omega
  · rw [heq] at h
    cases h
  · rw [heq] at h
    cases h

/-- What holds at every position inside a value that passes the checks. -/
structure Nested (s : Decoder) (opened : List OpenContainer) (t : Decoder) : Prop where
  within : WithinLimits s.config t
  length_le : s.depth + opened.length ≤ s.config.depthLimit
  entries_le : ∀ l, s.config.collectionLimit = some l → ∀ container ∈ opened,
    container.entries ≤ l

/-- One more value in a container is another entry of it, or none. -/
lemma entries_pass_le {container : OpenContainer} {outer : List OpenContainer} {u : Decoder}
    (hu : WithinLimits s.config u) (hpasses : Passes (container :: outer) u)
    (houter : ∀ l, s.config.collectionLimit = some l → ∀ o ∈ outer, o.entries ≤ l) :
    ∀ l, s.config.collectionLimit = some l → ∀ o ∈ container :: outer, o.entries ≤ l := by
  intro l hl o ho
  rcases List.mem_cons.mp ho with rfl | ho
  · rcases Nat.eq_zero_or_pos o.entries with hzero | hpos
    · omega
    · exact entries_le_of_countSep (hpasses.entry _ _ rfl hpos) (by rw [hu.under, hl])
  · exact houter l hl o ho

/-- The positions inside a value that passes the checks are within the limits. -/
lemma nested_of_inside (hs : WithinLimits s.config s) (h : Admits .skipValue s)
    {opened : List OpenContainer} (hin : Inside s opened t) : Nested s opened t := by
  induction hin with
  | @first kind t htake =>
      have hwithin := within_takeToken hs htake
      have hdepth := (Inside.first htake).onward.depth_eq
      have hlt := lt_of_pushFrame (h.1 kind t htake)
      rw [hwithin.under] at hlt
      refine ⟨hwithin, by rw [List.length_singleton]; omega, fun l _ o ho => ?_⟩
      obtain rfl := List.mem_singleton.mp ho
      cases kind <;> exact Nat.zero_le _
  | @value container outer t u token hin hread hkind ih =>
      have hwithin := within_readToken ih.within hread
      refine ⟨hwithin, ih.length_le, ?_⟩
      exact entries_pass_le hwithin (h.2 _ _ (hin.value hread hkind)) fun l hl o ho =>
        ih.entries_le l hl o (List.mem_cons_of_mem _ ho)
  | @enter opened t u kind hin hread ih =>
      have hwithin := within_readToken ih.within hread
      have hdepth := (hin.enter hread).onward.depth_eq
      obtain ⟨container, outer, rfl⟩ := List.exists_cons_of_ne_nil hin.ne_nil
      have hlt := lt_of_pushFrame ((h.2 _ _ hin).head kind u hread)
      refine ⟨hwithin, ?_, fun l hl o ho => ?_⟩
      · have hlt : u.depth + outer.length + 1 < u.config.depthLimit := hlt
        rw [hwithin.under] at hlt
        simp only [List.length_cons]
        omega
      · rcases List.mem_cons.mp ho with rfl | ho
        · cases kind <;> exact Nat.zero_le _
        · exact ih.entries_le l hl o ho
  | @leave inner container outer t hin hend ih =>
      have hwithin : WithinLimits s.config (after t 1) := by
        refine ⟨ih.within.under, fun l hl => ?_, ih.within.depth_le, ih.within.counts_le⟩
        exact (h.2 _ _ hin).cursor_lt hend (by rw [ih.within.under, hl])
      have hle := ih.length_le
      refine ⟨hwithin, ?_, ?_⟩
      · simp only [List.length_cons] at hle ⊢
        omega
      · exact entries_pass_le hwithin (h.2 _ _ (hin.leave hend)) fun l hl o ho =>
          ih.entries_le l hl o (List.mem_cons_of_mem _ (List.mem_cons_of_mem _ ho))

/-- A round of the loop of `skip_value` inside such a value. -/
lemma within_skipRound (hs : WithinLimits s.config s) (h : Admits .skipValue s)
    {opened : List OpenContainer} (hin : Inside s opened t) :
    WithinLimits s.config (skipRound opened.length t).2 := by
  have ht := (nested_of_inside hs h hin).within
  rw [skipRound.eq_def]
  refine bind_snd (reads_within.peekByte t ht) fun byte u hpeek => ?_
  obtain ⟨hnext, rfl⟩ := peekByte_eq_ok.mp hpeek
  split
  · next hend =>
      rw [bind_of_ok (bumpCursor_of_next hnext)]
      have hafter : WithinLimits s.config (after u 1) := by
        refine ⟨ht.under, fun l hl => ?_, ht.depth_le, ht.counts_le⟩
        exact (h.2 _ _ hin).cursor_lt (hend ▸ hnext) (by rw [ht.under, hl])
      rcases opened.length with _ | _ | n <;> exact hafter
  · refine bind_snd (reads_within.readToken u ht) fun token v hread => ?_
    have hv := within_readToken ht hread
    cases token with
    | beginArray | beginObject =>
        dsimp only
        split <;> exact hv
    | null | bool | number | str | endArray | endObject => exact hv

/-- The whole loop, from any of its rounds on. -/
lemma within_iterate (hs : WithinLimits s.config s) (h : Admits .skipValue s) (n : ℕ)
    {opened : List OpenContainer} (hin : Inside s opened t) :
    WithinLimits s.config (iterate skipRound n opened.length t).2 := by
  induction n generalizing opened t with
  | zero => exact (nested_of_inside hs h hin).within
  | succ n ih =>
      have hround := within_skipRound hs h hin
      rw [iterate_succ_run]
      rcases hrun : skipRound opened.length t with ⟨(k | a) | e | _ | _, u⟩
      · obtain ⟨opened', rfl, hin'⟩ := skipRound_inside hin hrun
        exact ih hin'
      all_goals rwa [hrun] at hround

lemma within_skipValue (hs : WithinLimits s.config s) (h : Admits .skipValue s) :
    WithinLimits s.config (skipValueInner s).2 := by
  rw [skipValueInner]
  refine bind_snd (reads_within.takeToken s hs) fun token t htake => ?_
  cases hkind : tokenKind token with
  | some kind =>
      obtain rfl := tokenKind_eq_some.mp hkind
      have := within_iterate hs h (t.input.bytes.length + 1) (.first htake)
      cases kind <;> exact this
  | none =>
      cases token with
      | beginArray | beginObject => simp [tokenKind] at hkind
      | _ => exact within_takeToken hs htake

/-- A call keeps within the limits if it meets the condition. -/
lemma within_step (call : Call) (hs : WithinLimits s.config s) (h : Admits call s) :
    WithinLimits s.config (step call s).2 := by
  by_cases hskip : call = .skipValue
  · subst hskip
    have := within_skipValue hs h
    rwa [step, method, map_snd]
  · by_cases hmark : ∃ mark, call = .restore mark
    · obtain ⟨mark, rfl⟩ := hmark
      have := within_restore hs h.1 h.2
      rwa [step, method, map_snd]
    · exact guarded_within.method within_popFrame
        (fun text s h => ⟨h.under, h.cursor_le, h.depth_le, h.counts_le⟩) hskip
        (fun mark heq => hmark ⟨mark, heq⟩) s hs

lemma honours_of_admits {call : Call} (hs : WithinLimits s.config s) (h : Admits call s) :
    Honours call s := by
  intro answer t hrun
  have hstep := within_step call hs h
  rw [hrun] at hstep
  refine ⟨hstep, ?_⟩
  rintro rfl opened u hin
  have hnested := nested_of_inside hs h hin
  exact ⟨hnested.length_le, hnested.entries_le⟩

/-! ## The condition is exact -/

omit [Target] in
lemma byte_eq_ok {byte : UInt8} {u : Decoder} : Decoder.byte t = (.ok byte, u) ↔
    next t = some byte ∧ (∀ l, t.config.limit = some l → t.cursor + 1 ≤ l) ∧ u = after t 1 := by
  constructor
  · intro h
    obtain ⟨bytes, v, htake, hfirst⟩ := bind_eq_ok.mp h
    rw [orFail_eq_ok, take, get_bind_run, bind_eq_ok] at htake
    obtain ⟨stop, t₁, hstop, htake⟩ := htake
    obtain ⟨hstop, h₁⟩ := okOr_eq_ok.mp hstop
    obtain rfl : t.cursor + 1 = stop := by
      rw [checkedAdd] at hstop
      split at hstop <;> cases hstop
      rfl
    obtain ⟨_, t₂, hlimit, htake⟩ := bind_eq_ok.mp htake
    obtain ⟨hlimit, h₂⟩ := atMost_eq_ok.mp hlimit
    obtain ⟨taken, t₃, hslice, htake⟩ := bind_eq_ok.mp htake
    obtain ⟨hslice, h₃⟩ := okOr_eq_ok.mp hslice
    rw [h₃, h₂, h₁] at htake
    rw [slice_one] at hslice
    obtain ⟨first, hnext, rfl⟩ := Option.map_eq_some_iff.mp hslice
    cases htake
    cases hfirst
    exact ⟨hnext, hlimit, rfl⟩
  · rintro ⟨hnext, hlimit, rfl⟩
    have hlt : t.cursor < t.input.bytes.length := (List.getElem?_eq_some_iff.mp hnext).1
    have hlen := t.input.length_le
    have htake : take 1 t = (.ok [byte], after t 1) := by
      rw [take, get_bind_run, checkedAdd, if_pos (by omega), okOr_some, pure_bind,
        atMost_of_le hlimit, pure_bind, slice_one,
        show t.input.bytes[t.cursor]? = some byte from hnext]
      rfl
    rw [Decoder.byte, bind_of_ok (orFail_eq_ok.mpr htake)]
    rfl

/-- A token starts with a byte that is not a terminator. -/
lemma next_of_readToken {token : Token} {u : Decoder} (h : readToken t = (.ok token, u)) :
    ∃ byte, next t = some byte ∧ byte ≠ tagEnd := by
  obtain ⟨tag, v, hbyte, h⟩ := bind_eq_ok.mp h
  refine ⟨tag, (byte_eq_ok.mp hbyte).1, ?_⟩
  rintro rfl
  cases h

/-- A round of the loop does not go back, and takes a terminator. -/
lemma skipRound_cursor {k : ℕ} {r : ℕ ⊕ Unit} {u : Decoder} (h : skipRound k t = (.ok r, u)) :
    t.cursor ≤ u.cursor ∧ (next t = some tagEnd → t.cursor + 1 ≤ u.cursor) := by
  rw [skipRound.eq_def, bind_eq_ok] at h
  obtain ⟨byte, v, hpeek, h⟩ := h
  obtain ⟨hnext, rfl⟩ := peekByte_eq_ok.mp hpeek
  split at h
  · rw [bind_of_ok (bumpCursor_of_next hnext)] at h
    have hu : u = after v 1 := by
      rcases k with _ | _ | k <;> cases h <;> rfl
    rw [hu]
    exact ⟨Nat.le_succ _, fun _ => Nat.le_refl _⟩
  · next hne =>
      obtain ⟨token, w, hread, h⟩ := bind_eq_ok.mp h
      have hu : u = w := by
        cases token with
        | beginArray | beginObject =>
            dsimp only at h
            split at h <;> cases h
            rfl
        | null | bool | number | str | endArray | endObject => cases h; rfl
      rw [hu]
      refine ⟨(onward_readToken hread).cursor_le, fun hend => ?_⟩
      rw [hnext] at hend
      exact absurd (Option.some.inj hend) hne

/-- What is left of a loop that succeeds. -/
lemma iterate_cursor {n k : ℕ} {u : Decoder} (h : iterate skipRound n k t = (.ok (), u)) :
    t.cursor ≤ u.cursor ∧ (next t = some tagEnd → t.cursor + 1 ≤ u.cursor) := by
  induction n generalizing k t with
  | zero => cases h
  | succ n ih =>
      rw [iterate_succ_run] at h
      rcases hround : skipRound k t with ⟨(k' | a) | e | _ | _, v⟩ <;> rw [hround] at h
      · have hcursor := skipRound_cursor hround
        have hle := (ih h).1
        exact ⟨hcursor.1.trans hle, fun hend => (hcursor.2 hend).trans hle⟩
      · cases h
        exact skipRound_cursor hround
      all_goals cases h

lemma rest_step {n k k' : ℕ} {u w : Decoder} (h : iterate skipRound (n + 1) k t = (.ok (), w))
    (hround : skipRound k t = (.ok (.inl k'), u)) :
    ∃ n', n = n' + 1 ∧ iterate skipRound (n' + 1) k' u = (.ok (), w) := by
  rw [iterate_succ_run, hround] at h
  cases n with
  | zero => cases h
  | succ n => exact ⟨n, rfl, h⟩

omit [Target] in
lemma items_pass_le {container : OpenContainer} {outer : List OpenContainer} {m : ℕ}
    (h : ∀ o ∈ container :: outer, o.items ≤ m) :
    ∀ o ∈ container.pass :: outer, o.items ≤ m + 1 := by
  intro o ho
  rcases List.mem_cons.mp ho with rfl | ho
  · exact Nat.succ_le_succ (h container List.mem_cons_self)
  · exact (h o (List.mem_cons_of_mem _ ho)).trans (Nat.le_succ m)

/-- A skip that succeeds goes over every position inside the value: the loop has `n` of its rounds
left there, and the `m` before have passed at most as many values in any container. -/
lemma Inside.rest {w : Decoder} (hskip : skipValueInner s = (.ok (), w))
    {opened : List OpenContainer} (hin : Inside s opened t) :
    ∃ n m, n + 1 + m = t.input.bytes.length + 1 ∧
      iterate skipRound (n + 1) opened.length t = (.ok (), w) ∧
      ∀ container ∈ opened, container.items ≤ m := by
  induction hin with
  | @first kind t h =>
      rw [skipValueInner, bind_of_ok h] at hskip
      refine ⟨t.input.bytes.length, 0, rfl, ?_, fun o ho => ?_⟩
      · cases kind <;> exact hskip
      · obtain rfl := List.mem_singleton.mp ho
        exact Nat.le_refl _
  | @value container outer t u token hin hread hkind ih =>
      obtain ⟨n, m, hsum, hrest, hitems⟩ := ih
      obtain ⟨byte, hnext, hne⟩ := next_of_readToken hread
      obtain ⟨n', rfl, hrest'⟩ := rest_step hrest (skipRound_token hnext hne hread hkind)
      refine ⟨n', m + 1, by rw [(onward_readToken hread).input_eq]; omega, hrest', ?_⟩
      exact items_pass_le fun o ho => hitems o ho
  | @enter opened t u kind hin hread ih =>
      obtain ⟨n, m, hsum, hrest, hitems⟩ := ih
      obtain ⟨byte, hnext, hne⟩ := next_of_readToken hread
      by_cases hmax : opened.length + 1 ≤ u64Max
      · obtain ⟨n', rfl, hrest'⟩ := rest_step hrest (skipRound_open hnext hne hread hmax)
        refine ⟨n', m + 1, by rw [(onward_readToken hread).input_eq]; omega, hrest', fun o ho => ?_⟩
        rcases List.mem_cons.mp ho with rfl | ho
        · exact Nat.zero_le _
        · exact (hitems o ho).trans (Nat.le_succ m)
      · -- the count of the open containers overflows
        have hround : skipRound opened.length t = (.panic, u) := by
          rw [skipRound.eq_def, bind_of_ok (peekByte_of_next hnext), if_neg hne, bind_of_ok hread]
          cases kind <;> exact congrFun (if_neg hmax) u
        rw [iterate_succ_run, hround] at hrest
        cases hrest
  | @leave inner container outer t hin hend ih =>
      obtain ⟨n, m, hsum, hrest, hitems⟩ := ih
      obtain ⟨n', rfl, hrest'⟩ := rest_step hrest (skipRound_end (Nat.succ_pos _) hend)
      refine ⟨n', m + 1, by rw [show (after t 1).input = t.input from rfl]; omega, hrest', ?_⟩
      exact items_pass_le fun o ho => hitems o (List.mem_cons_of_mem _ ho)

/-- The calls that read a container accept what a skip that honours the limits goes over. -/
lemma passes_of_honours {answer : Answer} {w : Decoder}
    (hstep : step .skipValue s = (.ok answer, w)) (h : Honours .skipValue s)
    {opened : List OpenContainer} (hin : Inside s opened t) : Passes opened t := by
  obtain ⟨hw, hnests⟩ := h _ _ hstep
  have hnests := hnests rfl
  have hskip : skipValueInner s = (.ok (), w) := by
    obtain ⟨_, hskip, -⟩ := map_eq_ok.mp hstep
    exact hskip
  obtain ⟨hlength, hentries⟩ := hnests _ _ hin
  have honward := hin.onward
  have hmax := s.config.depthLimit_le
  obtain ⟨n, m, hsum, hrest, hitems⟩ := hin.rest hskip
  have hcursor := iterate_cursor hrest
  obtain ⟨container, outer, rfl⟩ := List.exists_cons_of_ne_nil hin.ne_nil
  rw [List.length_cons] at hlength
  constructor
  · intro hend
    have hbyte : Decoder.byte (standing (container :: outer) t)
        = (.ok tagEnd, after (standing (container :: outer) t) 1) := by
      refine byte_eq_ok.mpr ⟨hend, fun l hl => (hcursor.2 hend).trans (hw.cursor_le l ?_), rfl⟩
      rw [← hl, ← honward.config_eq]
      rfl
    have hopen : (standing (container :: outer) t).depth ≠ 0 := Nat.succ_ne_zero _
    rw [exitContainer, get_bind_run, if_neg hopen, bind_of_ok hbyte, if_neg (not_not.mpr rfl)]
    rcases popFrame_cases (after (standing (container :: outer) t) 1) with
      ⟨d, hd, -, hpop⟩ | ⟨hdepth, -⟩
    · rw [hpop]
    · have hdepth : t.depth + outer.length + 1 = 0 ∨ maxDepth < t.depth + outer.length + 1 := hdepth
      rw [honward.depth_eq] at hdepth
      omega
  · intro kind u hread
    have hu := hin.enter hread
    have hlt := (hnests _ _ hu).1
    rw [List.length_cons, List.length_cons] at hlt
    have hroom : (standing (container :: outer) u).depth
        < (standing (container :: outer) u).config.depthLimit := by
      change u.depth + outer.length + 1 < u.config.depthLimit
      rw [hu.onward.depth_eq, hu.onward.config_eq]
      omega
    exact congrArg Prod.fst (pushFrame_eq_ok.mpr ⟨hroom, rfl⟩)
  · rintro _ _ ⟨⟩ hpos
    have hlimit : ∀ l, t.config.collectionLimit = some l → container.entries ≤ l := by
      intro l hl
      exact hentries l (by rw [← honward.config_eq, hl]) container List.mem_cons_self
    have hsmall : container.entries ≤ u64Max := by
      have hle := container.entries_le_items.trans (hitems container List.mem_cons_self)
      have := t.input.length_le
      omega
    have hd : t.depth + outer.length < maxDepth := by
      rw [honward.depth_eq]
      omega
    have hcount : (standing (container :: outer) t).counts[t.depth + outer.length] + 1
        = container.entries := by
      simp only [standing, Vector.getElem_setIfInBounds_self]
      omega
    refine congrArg Prod.fst ((countSep_eq_ok hd rfl).mpr ⟨?_, fun l hl => ?_, rfl⟩)
    · rwa [hcount]
    · rw [hcount]
      exact hlimit l hl

/-- **The condition is exact.** A skip that succeeds honours the limits if and only if the calls
that read a container would have accepted what it has gone over. -/
theorem honours_skip_iff {answer : Answer} (hs : WithinLimits s.config s)
    (h : step .skipValue s = (.ok answer, t)) : Honours .skipValue s ↔ Admits .skipValue s := by
  refine ⟨fun honours => ⟨fun kind u htake => ?_, fun opened u hin => ?_⟩, honours_of_admits hs⟩
  · have hin := Inside.first htake
    have hlt := ((honours _ _ h).2 rfl _ _ hin).1
    have hroom : u.depth < u.config.depthLimit := by
      rw [hin.onward.depth_eq, hin.onward.config_eq]
      exact hlt
    exact congrArg Prod.fst (pushFrame_eq_ok.mpr ⟨hroom, rfl⟩)
  · exact passes_of_honours h honours hin

/-! ## Runs -/

/-- **The limits hold in every run** whose calls meet the condition: no call goes beyond them, and
the decoder is never left outside of them. -/
theorem run_within_limits (input : Input) (config : Config) (calls : List Call)
    (h : EachCall step Admits calls (new input config)) :
    EachCall step Honours calls (new input config) ∧
      Along step (WithinLimits config) calls (new input config) := by
  suffices hrun : ∀ s, WithinLimits config s → EachCall step Admits calls s →
      EachCall step Honours calls s ∧ Along step (WithinLimits config) calls s from
    hrun _ (withinLimits_new input config) h
  clear h
  induction calls with
  | nil => exact fun s hs _ => ⟨trivial, hs⟩
  | cons call calls ih =>
      rintro s hs ⟨hcall, hcalls⟩
      have hs' : WithinLimits s.config s := hs.under.symm ▸ hs
      have hnext : WithinLimits config (step call s).2 := hs.under ▸ within_step call hs' hcall
      obtain ⟨honours, along⟩ := ih _ hnext hcalls
      exact ⟨⟨honours_of_admits hs' hcall, honours⟩, hs, along⟩

end Limits

section Witness

local instance limitsTarget : Target := ⟨true⟩

/-- One level, one entry and four bytes. -/
def tight : Config :=
  { Config.standard with
    limit := some 4
    collectionLimit := some 1
    depthLimit := 1
    depthLimit_le := by decide }

/-- The array `[null]`. -/
def singleton : Decoder := new ⟨[tagArray, tagNull, tagEnd], by decide⟩ tight

lemma inside_singleton {opened : List OpenContainer} {t : Decoder} (h : Inside singleton opened t) :
    (opened = [⟨.array, 0⟩] ∧ t = { singleton with cursor := 1 }) ∨
      (opened = [⟨.array, 1⟩] ∧ t = { singleton with cursor := 2 }) := by
  have htake : takeToken singleton = (.ok .beginArray, { singleton with cursor := 1 }) := rfl
  have hnull : readToken { singleton with cursor := 1 }
      = (.ok .null, { singleton with cursor := 2 }) := rfl
  have hend : ∀ token u, readToken { singleton with cursor := 2 } ≠ (.ok token, u) := by
    intro token u h
    cases h
  induction h with
  | @first kind t h =>
      rw [htake] at h
      cases kind <;> cases h
      exact .inl ⟨rfl, rfl⟩
  | value hin h hkind ih =>
      rcases ih with ⟨hopened, rfl⟩ | ⟨-, rfl⟩
      · rw [hnull] at h
        cases h
        cases hopened
        exact .inr ⟨rfl, rfl⟩
      · exact absurd h (hend _ _)
  | @enter opened t u kind hin h ih =>
      rcases ih with ⟨-, rfl⟩ | ⟨-, rfl⟩
      · rw [hnull] at h
        cases kind <;> cases h
      · exact absurd h (hend _ _)
  | leave hin h ih => rcases ih with ⟨hopened, -⟩ | ⟨hopened, -⟩ <;> cases hopened

lemma admits_singleton : Admits .skipValue singleton := by
  constructor
  · intro kind t h
    have htake : takeToken singleton = (.ok .beginArray, { singleton with cursor := 1 }) := rfl
    rw [htake] at h
    cases kind <;> cases h
    rfl
  · intro opened t h
    rcases inside_singleton h with ⟨rfl, rfl⟩ | ⟨rfl, rfl⟩
    · exact {
        terminator := fun h => by cases h
        head := fun kind u h => by cases kind <;> cases h
        entry := fun container outer h hpos => by
          cases h
          exact absurd hpos (by decide) }
    · exact {
        terminator := fun _ => rfl
        head := fun kind u h => by cases h
        entry := fun _ _ _ _ => by decide +kernel }

/-- Skipping the array keeps within the limits. -/
theorem run_within_limits_singleton :
    EachCall step Honours [.skipValue] singleton ∧
      Along step (WithinLimits tight) [.skipValue] singleton :=
  run_within_limits _ _ _ ⟨admits_singleton, trivial⟩

/-- The array `[[], null]`. -/
def nestedPair : Decoder := new ⟨[tagArray, tagArray, tagEnd, tagNull, tagEnd], by decide⟩ tight

/-- Skipping the array goes down two levels and over two entries, and takes a fifth byte. -/
theorem skipValue_beyond_limits :
    ¬ EachCall step Honours [.skipValue] nestedPair ∧
      step .skipValue nestedPair = (.ok .unit, { nestedPair with cursor := 5 }) ∧
      Inside nestedPair [⟨.array, 0⟩, ⟨.array, 0⟩] { nestedPair with cursor := 2 } ∧
      Inside nestedPair [⟨.array, 2⟩] { nestedPair with cursor := 4 } := by
  have hskip : step .skipValue nestedPair = (.ok .unit, { nestedPair with cursor := 5 }) := rfl
  have hfirst : takeToken nestedPair = (.ok (kindToken .array), { nestedPair with cursor := 1 }) := rfl
  have hhead : readToken { nestedPair with cursor := 1 }
      = (.ok (kindToken .array), { nestedPair with cursor := 2 }) := rfl
  have hnull : readToken { nestedPair with cursor := 3 }
      = (.ok .null, { nestedPair with cursor := 4 }) := rfl
  have hinner : Inside nestedPair [⟨.array, 0⟩, ⟨.array, 0⟩] { nestedPair with cursor := 2 } :=
    .enter (.first hfirst) hhead
  have houter : Inside nestedPair [⟨.array, 1⟩] { nestedPair with cursor := 3 } := hinner.leave rfl
  refine ⟨fun h => ?_, hskip, hinner, houter.value hnull rfl⟩
  have hcursor : 5 ≤ 4 := (h.1 _ _ hskip).1.cursor_le 4 rfl
  omega

end Witness

end RustBinary.Native
