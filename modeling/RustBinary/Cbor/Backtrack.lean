import RustBinary.Cbor.Invariant

/-!
# Backtracking in the CBOR decoder

`save` answers a mark of the cursor and the depth, and `restore` goes back to it.  Between
the two a caller may make any calls that do not close the container that was open at the
save, as `Option` and untagged enumerations do.

The calls in between cannot reach what lies below that container: the outer containers with
their remaining counts and the counters of the outer depths (`Agree`, `run_agree`).  But a
mark has no room for four things at its own level: a token that was pending at the save, the
remaining count of a definite container that was open, the separators counted in it, and the
text installed by `set_expecting`.  `restore` throws the pending token away and keeps the
other three as the calls in between have left them.  So backtracking is exact if and only
if there was no pending token and the other three are as they were (`Untouched`).
-/

namespace RustBinary.Cbor

open Lib Lib.Act CborDecoder

/-! ## Decoders that differ in the recorded wire error -/

/-- The two decoders differ in the recorded wire error only. -/
def Alike (s t : CborDecoder) : Prop := t = { s with wireError := t.wireError }

lemma alike_with (s : CborDecoder) (w : Option Error) : Alike s { s with wireError := w } := rfl

lemma alike_update {f : CborDecoder → CborDecoder}
    (hf : ∀ s w, ∃ w', f { s with wireError := w } = { f s with wireError := w' }) :
    ∀ s t, Alike s t → Alike (f s) (f t) := by
  intro s t h
  obtain ⟨w', hw⟩ := hf s t.wireError
  rw [h, hw]
  exact alike_with (f s) w'

section Respects

variable {ε α : Type}

lemma respects_get {f : CborDecoder → Act CborDecoder ε α}
    (hf : ∀ s w, f { s with wireError := w } = f s) (h : ∀ s, Respects Alike (f s)) :
    Respects Alike (Act.get >>= f) :=
  respects_get_bind (fun s t hst => by rw [hst]; exact (hf s t.wireError).symm) h

lemma respects_update {f : CborDecoder → CborDecoder}
    (hf : ∀ s w, ∃ w', f { s with wireError := w } = { f s with wireError := w' }) :
    Respects Alike (Act.modify f : Act CborDecoder ε Unit) :=
  respects_modify (alike_update hf)

lemma respects_fail (e : Error) : Respects Alike (fail e : Dec α) :=
  (closed_respects Alike).bind (respects_update fun _ _ => ⟨some e, rfl⟩) fun _ =>
    (closed_respects Alike).throw _

lemma respects_orFail {m : Act CborDecoder Error α} (hm : Respects Alike m) :
    Respects Alike (orFail m) :=
  respects_onErr hm respects_fail

lemma respects_popFrame (kind : ContainerKind) : Respects Alike (popFrame kind) := by
  refine respects_get (fun _ _ => rfl) fun s => ?_
  split
  · exact respects_fail _
  · split
    · exact respects_fail _
    · split
      · exact (closed_respects Alike).panic
      · split
        · exact respects_update fun _ w => ⟨w, rfl⟩
        · exact (closed_respects Alike).panic

lemma respects_peekByte : Respects Alike (orFail peekByte) := by
  have h := closed_respects (ε := Error) Alike
  exact respects_orFail <| respects_get (fun _ _ => rfl) fun _ =>
    h.bind (h.okOr _ _) fun _ => h.bind (h.atMost _ _ _) fun _ => h.pure _

lemma respects_bumpCursor : Respects Alike bumpCursor := by
  refine respects_get (fun _ _ => rfl) fun s => ?_
  split
  · exact respects_update fun _ w => ⟨w, rfl⟩
  · exact (closed_respects Alike).panic

end Respects

lemma primitive_respects : Primitive fun _ m => Respects Alike m where
  toClosed := closed_respects Alike
  get := fun hf h => respects_get hf h
  fail := respects_fail
  take := by
    intro len
    have h := closed_respects (ε := Error) Alike
    exact respects_orFail <| respects_get (fun _ _ => rfl) fun _ =>
      h.bind (h.okOr _ _) fun _ => h.bind (h.atMost _ _ _) fun _ => h.bind (h.okOr _ _) fun _ =>
        h.bind (respects_update fun _ w => ⟨w, rfl⟩) fun _ => h.pure _
  peekByte := respects_peekByte
  passByte := fun c _ _ _ hf hg =>
    passByte_of_bump (closed_respects Alike) respects_peekByte respects_bumpCursor c hf hg
  bumpCursor := respects_bumpCursor
  clearLookahead := respects_update fun _ w => ⟨w, rfl⟩
  decRemaining := by
    refine respects_get (fun _ _ => rfl) fun s => ?_
    split
    · split
      · exact respects_fail _
      · exact respects_update fun _ w => ⟨w, rfl⟩
    · exact (closed_respects Alike).pure _
  enterContainer := by
    intro kind definite
    refine respects_get (fun _ _ => rfl) fun s => ?_
    split
    · exact respects_fail _
    · refine (closed_respects Alike).bind ?_ fun _ => respects_update fun _ w => ⟨w, rfl⟩
      cases definite with
      | none => exact (closed_respects Alike).pure _
      | some count =>
          exact respects_get (fun _ _ => rfl) fun s =>
            respects_orFail ((closed_respects Alike).atMost _ _ _)
  countElement := by
    refine respects_get (fun _ _ => rfl) fun s => ?_
    split
    · exact respects_fail _
    · split
      · have h := closed_respects (ε := Error) Alike
        exact (closed_respects Alike).bind (respects_orFail (h.okOr _ _)) fun _ =>
          (closed_respects Alike).bind (respects_orFail (h.atMost _ _ _)) fun _ =>
            respects_update fun _ w => ⟨w, rfl⟩
      · exact (closed_respects Alike).panic

/-- No call reads the recorded wire error. -/
lemma step_alike (narrow : Number → Option UInt8) (call : CborCall) (s t : CborDecoder)
    (h : Alike s t) :
    (step narrow call s).1 = (step narrow call t).1 ∧
      Alike (step narrow call s).2 (step narrow call t).2 :=
  primitive_respects.method narrow call respects_popFrame
    (fun _ _ => respects_update fun _ _ => ⟨none, rfl⟩)
    (fun _ => respects_get (fun _ _ => rfl) fun _ =>
      (closed_respects Alike).bind (respects_update fun _ w => ⟨w, rfl⟩) fun _ =>
        (closed_respects Alike).pure _)
    (fun _ => respects_update fun _ w => ⟨w, rfl⟩) s t h

/-! ## What the calls in between leave alone -/

/-- Below its `f`-th container and its `d`-th counter `t` is as `s`: the containers outside
the `f`-th one with their remaining counts, the kind of the `f`-th one, the counters of the
depths outside the `d`-th one, the input and the configuration. -/
structure Agree (f d : ℕ) (s t : CborDecoder) : Prop where
  input : t.input = s.input
  config : t.config = s.config
  outer : t.frames.take (f - 1) = s.frames.take (f - 1)
  kinds : (t.frames.take f).map Frame.kind = (s.frames.take f).map Frame.kind
  counts : ∀ (i : ℕ) (hi : i < maxDepth), i + 1 < d → t.counts[i] = s.counts[i]

namespace Agree

variable {f d : ℕ} {s t u : CborDecoder}

lemma refl (f d : ℕ) (s : CborDecoder) : Agree f d s s :=
  ⟨rfl, rfl, rfl, rfl, fun _ _ _ => rfl⟩

lemma trans (h : Agree f d s t) (h' : Agree f d t u) : Agree f d s u where
  input := h'.input.trans h.input
  config := h'.config.trans h.config
  outer := h'.outer.trans h.outer
  kinds := h'.kinds.trans h.kinds
  counts := fun i hi hd => (h'.counts i hi hd).trans (h.counts i hi hd)

lemma mono {f' d' : ℕ} (h : Agree f d s t) (hf : f' ≤ f) (hd : d' ≤ d) : Agree f' d' s t where
  input := h.input
  config := h.config
  outer := by
    have := congrArg (List.take (f' - 1)) h.outer
    rwa [List.take_take, List.take_take, Nat.min_eq_left (by omega)] at this
  kinds := by
    have := congrArg (List.take f') h.kinds
    rwa [← List.map_take, ← List.map_take, List.take_take, List.take_take,
      Nat.min_eq_left hf] at this
  counts := fun i hi hlt => h.counts i hi (by omega)

/-- Only the stack and the counters matter. -/
lemma of_eq (hi : t.input = s.input) (hc : t.config = s.config) (hf : t.frames = s.frames)
    (hn : t.counts = s.counts) : Agree f d s t where
  input := hi
  config := hc
  outer := by rw [hf]
  kinds := by rw [hf]
  counts := fun i hi _ => by simp [hn]

end Agree

/-- `t` comes after `s` and none of the containers of `s` has been closed in between. -/
structure Keeps (s t : CborDecoder) : Prop where
  frames_le : s.frames.length ≤ t.frames.length
  level : t.frames.length + s.depth = s.frames.length + t.depth
  agree : Agree s.frames.length s.depth s t

namespace Keeps

variable {s t u : CborDecoder}

lemma depth_le (h : Keeps s t) : s.depth ≤ t.depth := by
  have := h.frames_le
  have := h.level
  omega

lemma refl (s : CborDecoder) : Keeps s s := ⟨Nat.le_refl _, rfl, Agree.refl _ _ s⟩

lemma trans (h : Keeps s t) (h' : Keeps t u) : Keeps s u where
  frames_le := h.frames_le.trans h'.frames_le
  level := by
    have := h.level
    have := h'.level
    omega
  agree := h.agree.trans (h'.agree.mono h.frames_le h.depth_le)

/-- Only the stack, the depth and the counters matter. -/
lemma of_eq (hi : t.input = s.input) (hc : t.config = s.config) (hf : t.frames = s.frames)
    (hd : t.depth = s.depth) (hn : t.counts = s.counts) : Keeps s t where
  frames_le := by rw [hf]
  level := by rw [hf, hd]
  agree := Agree.of_eq hi hc hf hn

lemma failed (s : CborDecoder) (e : Error) : Keeps s (s.failed e) := of_eq rfl rfl rfl rfl rfl

end Keeps

/-- The methods that do not close a container keep the containers of the decoder. -/
lemma primitive_keeps : Primitive fun _ m => Moves Keeps m := by
  refine primitive_moves Keeps.refl (fun _ _ _ => Keeps.trans) ?_ ?_ ?_ ?_ ?_ ?_
  · exact Keeps.failed
  · exact fun s n => Keeps.of_eq rfl rfl rfl rfl rfl
  · exact fun s => Keeps.of_eq rfl rfl rfl rfl rfl
  · intro s kind next hlast
    obtain ⟨outer, hframes⟩ : ∃ outer, s.frames = outer ++ [⟨kind, some (next + 1)⟩] :=
      List.getLast?_eq_some_iff.mp hlast
    refine ⟨by simp [hframes], by simp [hframes], rfl, rfl, ?_, ?_, fun _ _ _ => rfl⟩
    · simp [hframes]
    · simp [hframes]
  · intro s frame hd
    refine ⟨by simp, by simp; omega, rfl, rfl, ?_, ?_, fun _ _ _ => rfl⟩
    · rw [List.take_append_of_le_length (by omega)]
    · rw [List.take_append_of_le_length (Nat.le_refl _)]
  · intro s index count hi hd
    refine ⟨Nat.le_refl _, rfl, rfl, rfl, rfl, rfl, fun i hi' hlt => ?_⟩
    exact Vector.getElem_set_ne hi hi' (by omega)

/-- Whatever containers of `s` are still open in `t`, `t` is as `s` below them. -/
def Agrees (s t : CborDecoder) : Prop :=
  ∀ f d, f ≤ s.frames.length → d ≤ s.depth → f ≤ t.frames.length → d ≤ t.depth → Agree f d s t

lemma Keeps.agrees {s t : CborDecoder} (h : Keeps s t) : Agrees s t :=
  fun _ _ hf hd _ _ => h.agree.mono hf hd

lemma Keeps.trans_agrees {s t u : CborDecoder} (h : Keeps s t) (h' : Agrees t u) :
    Agrees s u := by
  intro f d hf hd hf' hd'
  have h1 : f ≤ t.frames.length := hf.trans h.frames_le
  have h2 : d ≤ t.depth := hd.trans h.depth_le
  exact (h.agree.mono hf hd).trans (h' f d h1 h2 hf' hd')

lemma agrees_bind {α β : Type} {m : Dec α} {f : α → Dec β} (hm : Moves Keeps m)
    (hf : ∀ a, Moves Agrees (f a)) : Moves Agrees (m >>= f) := by
  intro s
  refine bind_snd (hm s).agrees fun a t h => ?_
  have hs : Keeps s t := by
    have := hm s
    rwa [h] at this
  exact hs.trans_agrees (hf a t)

lemma agrees_popFrame (kind : ContainerKind) : Moves Agrees (popFrame kind) := by
  intro s
  rcases popFrame_cases s kind with ⟨d, hd, definite, hdepth, hlast, heq⟩ | ⟨-, e, heq⟩ |
    ⟨-, -, heq⟩
  · rw [heq]
    intro f d' hf hd' hf' hd''
    have hle : f ≤ s.frames.length - 1 := by simpa using hf'
    refine ⟨rfl, rfl, ?_, ?_, fun i hi hlt => ?_⟩
    · simp only [List.dropLast_eq_take, List.take_take]
      rw [Nat.min_eq_left (by omega)]
    · simp only [List.dropLast_eq_take, List.take_take]
      rw [Nat.min_eq_left hle]
    · have : d' ≤ d := hd''
      exact Vector.getElem_set_ne hd hi (by omega)
  · rw [heq]
    exact (Keeps.failed s e).agrees
  · rw [heq]
    exact (Keeps.refl s).agrees

lemma agrees_endContainer (kind : ContainerKind) : Moves Agrees (endContainer kind) := by
  refine agrees_bind primitive_keeps.passEnd fun _ => ?_
  intro s
  rw [closeFrame, get_bind_run]
  rcases s.frames.getLast? with _ | frame
  · exact (Keeps.failed s _).agrees
  · by_cases hempty : frame.definite = none ∨ frame.definite = some 0
    · dsimp only
      rw [if_pos hempty]
      exact agrees_popFrame kind s
    · dsimp only
      rw [if_neg hempty]
      exact (Keeps.failed s _).agrees

lemma agrees_bytes (narrow : Number → Option UInt8) : Moves Agrees (bytes narrow) := by
  have keeps := primitive_keeps
  refine agrees_bind keeps.peekByte fun byte => ?_
  dsimp only
  split_ifs
  · exact fun s => (keeps.bind keeps.readHead (fun _ => keeps.readBytes _) s).agrees
  · exact fun s => (keeps.bind (keeps.expectToken _ _) (fun _ => keeps.pure _) s).agrees
  · refine agrees_bind (keeps.expectToken _ _) fun _ s => ?_
    refine agrees_bind (keeps.iterate (keeps.bytesRound narrow) _ _) (fun out t => ?_) s
    rw [bind_pure_snd]
    exact agrees_endContainer _ t
  · exact fun s => (keeps.fail _ s).agrees

/-! ### Skipping a value

`skip_value` closes containers, but only those it has opened: as long as it is deeper than
it was at the start, the open container on the top is one of its own. -/

/-- `t` comes after `s` while a value is skipped from depth `d` with `f` open containers. -/
def Over (f d : ℕ) (s t : CborDecoder) : Prop :=
  f + s.depth ≤ s.frames.length + d ∧ d ≤ s.depth →
    (f + t.depth ≤ t.frames.length + d ∧ d ≤ t.depth) ∧ Agree f d s t

lemma Keeps.over {s t : CborDecoder} (h : Keeps s t) (f d : ℕ) : Over f d s t := by
  rintro ⟨hf, hd⟩
  have hdepth := h.depth_le
  have hlevel := h.level
  exact ⟨⟨by omega, by omega⟩, h.agree.mono (by omega) hd⟩

lemma Over.trans {f d : ℕ} {s t u : CborDecoder} (h : Over f d s t) (h' : Over f d t u) :
    Over f d s u := by
  intro hs
  obtain ⟨ht, hagree⟩ := h hs
  obtain ⟨hu, hagree'⟩ := h' ht
  exact ⟨hu, hagree.trans hagree'⟩

lemma over_popFrame (kind : ContainerKind) {f d : ℕ} {s : CborDecoder} (hlt : d < s.depth) :
    Over f d s (popFrame kind s).2 := by
  rintro ⟨hf, hd⟩
  have hagrees := agrees_popFrame kind s f d (by omega) hd
  rcases popFrame_cases s kind with ⟨d', hd', definite, hdepth, hlast, heq⟩ | ⟨-, e, heq⟩ |
    ⟨-, -, heq⟩
  · have hne : 0 < s.frames.length := by omega
    rw [heq] at hagrees ⊢
    have hlen : f ≤ s.frames.dropLast.length := by
      rw [List.length_dropLast]
      omega
    refine ⟨⟨?_, by simp only; omega⟩, hagrees hlen (by simp only; omega)⟩
    simp only [List.length_dropLast]
    omega
  · rw [heq]
    exact (Keeps.failed s e).over f d ⟨hf, hd⟩
  · rw [heq]
    exact (Keeps.refl s).over f d ⟨hf, hd⟩

lemma over_skipRound (f saved : ℕ) (u : Unit) : Moves (Over f saved) (skipRound saved u) := by
  intro s
  have keeps := primitive_keeps
  rw [skipRound, get_bind_run]
  by_cases hlt : saved < s.depth
  · rw [if_pos hlt]
    rcases s.frames.getLast? with _ | frame
    · exact (Keeps.failed s _).over f saved
    · refine bind_snd ((keeps.atEnd _ s).over f saved) fun finished t ht => ?_
      have hst : Keeps s t := by
        have := keeps.atEnd frame s
        rwa [ht] at this
      cases finished with
      | false =>
          refine (hst.trans ?_).over f saved
          have := keeps.takeToken t
          rwa [← bind_pure_snd takeToken] at this
      | true =>
          refine bind_snd ((hst.trans (keeps.passBreak _ t)).over f saved) fun _ u hu => ?_
          have htu : Keeps t u := by
            have := keeps.passBreak frame t
            rwa [hu] at this
          rw [bind_pure_snd]
          have hdeep : saved < u.depth := hlt.trans_le (hst.trans htu).depth_le
          exact ((hst.trans htu).over f saved).trans (over_popFrame _ hdeep)
  · rw [if_neg hlt]
    exact (Keeps.refl s).over f saved

lemma agrees_skipValueInner : Moves Agrees skipValueInner := by
  intro s
  have keeps := primitive_keeps
  change Agrees s ((takeToken >>= fun _ => Act.get >>= fun t =>
    iterate (skipRound s.depth) ((maxDepth + 1) * (t.input.bytes.length + 1)) ()) s).2
  refine bind_snd (keeps.takeToken s).agrees fun _ t ht => ?_
  have hst : Keeps s t := by
    have := keeps.takeToken s
    rwa [ht] at this
  have hover : Closed (ε := NextjsonError) fun _ m => Moves (Over s.frames.length s.depth) m :=
    closed_moves (fun s => (Keeps.refl s).over _ _) fun _ _ _ => Over.trans
  have hloop := hover.iterate (over_skipRound s.frames.length s.depth)
    ((maxDepth + 1) * (t.input.bytes.length + 1)) () t
  have hagree := ((hst.over _ _).trans hloop ⟨Nat.le_of_eq (by omega), Nat.le_refl _⟩).2
  exact fun f d hf hd _ _ => hagree.mono hf hd

lemma agrees_restore (mark : Mark) : Moves Agrees (restore mark) := by
  intro s f d hf hd hf' hd'
  have hle : f ≤ min mark.depth maxDepth := by
    have : f ≤ (s.frames.take (min mark.depth maxDepth)).length := hf'
    rw [List.length_take] at this
    omega
  refine ⟨rfl, rfl, ?_, ?_, fun i hi hlt => ?_⟩
  · simp only [restore, modify_run, List.take_take]
    rw [Nat.min_eq_left (by omega)]
  · simp only [restore, modify_run, List.take_take]
    rw [Nat.min_eq_left hle]
  · have hlt' : i < min mark.depth maxDepth := by
      have : d ≤ min mark.depth maxDepth := hd'
      omega
    simp only [restore, modify_run]
    rw [getElem_clearFrom]
    exact if_pos hlt'

/-- One call leaves what lies below the containers that it does not close as it was. -/
lemma agrees_step (narrow : Number → Option UInt8) (call : CborCall) (s : CborDecoder) :
    Agrees s (step narrow call s).2 := by
  have keeps := primitive_keeps
  cases call with
  | bytes =>
      rw [step, method, map_snd]
      exact agrees_bytes narrow s
  | optionTag => exact (keeps.map _ keeps.optionTag s).agrees
  | required call =>
      cases call with
      | endObject =>
          rw [step, method, requiredMethod, map_snd]
          exact agrees_endContainer _ s
      | endArray =>
          rw [step, method, requiredMethod, map_snd]
          exact agrees_endContainer _ s
      | skipValue =>
          rw [step, method, requiredMethod, map_snd]
          exact agrees_skipValueInner s
      | restore mark =>
          rw [step, method, requiredMethod, map_snd]
          exact agrees_restore mark s
      | setExpecting text =>
          have h : Keeps s (step narrow (.required (.setExpecting text)) s).2 :=
            Keeps.of_eq rfl rfl rfl rfl rfl
          exact h.agrees
      | save => exact (Keeps.refl s).agrees
      | isHumanReadable => exact (Keeps.refl s).agrees
      | objectKey => exact (keeps.map _ keeps.objectKey s).agrees
      | objectEntrySep => exact (keeps.map _ keeps.entrySep s).agrees
      | arrayEntrySep => exact (keeps.map _ keeps.entrySep s).agrees
      | arrayHasMore => exact (keeps.map _ keeps.hasMore s).agrees
      | char => exact (keeps.map _ keeps.char s).agrees
      | peekToken =>
          exact (keeps.map _ (keeps.peekTokenInner fun _ _ => Keeps.of_eq rfl rfl rfl rfl rfl)
            s).agrees
      | nextToken => exact (keeps.map _ keeps.takeToken s).agrees
      | beginObject => exact (keeps.map _ (keeps.expectToken _ _) s).agrees
      | beginArray => exact (keeps.map _ (keeps.expectToken _ _) s).agrees
      | unit => exact (keeps.map _ (keeps.expectToken _ _) s).agrees
      | bool => exact (keeps.map _ (keeps.expectToken _ _) s).agrees
      | number => exact (keeps.map _ (keeps.expectToken _ _) s).agrees
      | string => exact (keeps.map _ (keeps.expectToken _ _) s).agrees

/-! ## Backtracking -/

namespace CborDecoder

/-- The mark that `save` answers. -/
def mark (s : CborDecoder) : Mark := ⟨s.cursor, s.depth % 2 ^ 32⟩

/-- What a caller can tell about a decoder: the position, the open containers with their
remaining counts, the separators counted at each depth and the pending token. -/
structure View where
  cursor : ℕ
  depth : ℕ
  frames : List Frame
  counts : Vector ℕ maxDepth
  lookahead : Option Token
deriving DecidableEq

def view (s : CborDecoder) : View := ⟨s.cursor, s.depth, s.frames, s.counts, s.lookahead⟩

end CborDecoder

section Backtrack

variable (narrow : Number → Option UInt8)

/-- The decoder after `save`, the calls `calls` and the `restore` of the mark. -/
def backtrack (calls : List CborCall) (s : CborDecoder) : CborDecoder :=
  (run (step narrow)
    (.required .save :: (calls ++ [.required (.restore s.mark)])) s).2

/-- The calls do not close the container that is open in `s`. -/
def KeepsOpen (calls : List CborCall) (s : CborDecoder) : Prop :=
  Along (step narrow) (fun t => s.frames.length ≤ t.frames.length ∧ s.depth ≤ t.depth) calls s

instance (calls : List CborCall) (s : CborDecoder) : Decidable (KeepsOpen narrow calls s) :=
  inferInstanceAs (Decidable (Along _ _ _ _))

/-- `t` behaves on every later call as `s` does. -/
def SameBehaviour (s t : CborDecoder) : Prop := Lib.SameBehaviour (step narrow) view s t

end Backtrack

/-- What a mark taken in `s` does not hold is in `t` as it was in `s`. -/
structure Untouched (s t : CborDecoder) : Prop where
  /-- No token was pending at the save. -/
  noPending : s.lookahead = none
  /-- The containers that `restore` keeps are as many as were open. -/
  height : min s.depth t.frames.length = s.frames.length
  /-- No element has been charged to the container that was open. -/
  remaining : ∀ frame, s.frames.getLast? = some frame →
    (t.frames[s.frames.length - 1]?).map Frame.definite = some frame.definite
  /-- No separator has been counted in it. -/
  separators : ∀ (i : ℕ) (hi : i < maxDepth), s.depth = i + 1 → t.counts[i] = s.counts[i]
  expecting : t.expecting = s.expecting

variable {narrow : Number → Option UInt8}

lemma step_save (s : CborDecoder) :
    step narrow (.required .save) s = (.ok (.mark s.mark), s) := rfl

lemma backtrack_eq (calls : List CborCall) (s : CborDecoder) :
    backtrack narrow calls s = (restore s.mark (run (step narrow) calls s).2).2 := by
  have hrestore : ∀ t, (step narrow (.required (.restore s.mark)) t).2 =
      (restore s.mark t).2 := fun t => rfl
  rw [backtrack, run_cons, step_save, run_append, run_cons, run_nil, hrestore]

/-- What the calls between a save and its restore leave alone. -/
lemma run_agree {calls : List CborCall} {s : CborDecoder} (hopen : KeepsOpen narrow calls s) :
    Agree s.frames.length s.depth s (run (step narrow) calls s).2 :=
  run_rel (Agree.refl _ _) (fun _ _ _ => Agree.trans)
    (fun call t ht ht' => agrees_step narrow call t _ _ ht.1 ht.2 ht'.1 ht'.2) calls hopen

/-- Decoders that differ in the recorded wire error only behave alike. -/
lemma sameBehaviour_of_alike {s t : CborDecoder} (h : Alike s t) :
    SameBehaviour narrow s t := by
  refine sameBehaviour_of_bisim (step_alike narrow) (fun s t hst => ?_) h
  rw [hst]
  rfl

/-- Decoders that behave alike are in the same position, with the same containers open, the
same counters, the same pending token and the same expectation. -/
lemma SameBehaviour.eqs {s t : CborDecoder} (h : SameBehaviour narrow s t) :
    t.view = s.view ∧ t.expecting = s.expecting := by
  refine ⟨(h []).2, ?_⟩
  have hstep : ∀ u : CborDecoder, (run (step narrow) [.required (.setExpecting "")] u).1 =
      [.ok (.expecting u.expecting)] := fun u => rfl
  have hout := (h [.required (.setExpecting "")]).1
  rw [hstep, hstep] at hout
  simpa using hout

/-- The containers that a restore keeps are the ones that were open at the save. -/
lemma take_frames_eq_iff {s t : CborDecoder} (hagree : Agree s.frames.length s.depth s t) :
    t.frames.take s.depth = s.frames ↔
      min s.depth t.frames.length = s.frames.length ∧
        ∀ frame, s.frames.getLast? = some frame →
          (t.frames[s.frames.length - 1]?).map Frame.definite = some frame.definite := by
  constructor
  · intro heq
    have hlen : min s.depth t.frames.length = s.frames.length := by
      rw [← heq, List.length_take]
    refine ⟨hlen, fun frame hlast => ?_⟩
    have hne : 0 < s.frames.length := by
      rcases hs : s.frames with _ | ⟨a, l⟩
      · simp [hs] at hlast
      · simp
    have hget : (t.frames.take s.depth)[s.frames.length - 1]? =
        s.frames[s.frames.length - 1]? := by rw [heq]
    rw [List.getElem?_take_of_lt (by omega)] at hget
    rw [hget, ← List.getLast?_eq_getElem?, hlast]
    rfl
  · rintro ⟨hlen, htop⟩
    have hshort : t.frames.take s.depth = t.frames.take s.frames.length := by
      rw [← hlen]
      rcases Nat.le_total s.depth t.frames.length with hle | hle
      · rw [Nat.min_eq_left hle]
      · rw [Nat.min_eq_right hle, List.take_length, List.take_of_length_le hle]
    rw [hshort]
    rcases hs : s.frames.getLast? with _ | frame
    · have : s.frames = [] := List.getLast?_eq_none_iff.mp hs
      simp [this]
    · obtain ⟨outer, hframes⟩ : ∃ outer, s.frames = outer ++ [frame] :=
        List.getLast?_eq_some_iff.mp hs
      have hlast := htop frame hs
      have hkinds := hagree.kinds
      have houter := hagree.outer
      rw [hframes] at hlast hkinds houter ⊢
      rw [List.length_append, List.length_singleton, Nat.add_sub_cancel] at hlast houter
      rw [List.take_left] at houter
      rcases ht : t.frames[outer.length]? with _ | top
      · rw [ht] at hlast
        cases hlast
      · have htake : t.frames.take (outer.length + 1) = outer ++ [top] := by
          rw [List.take_add_one, houter, ht]
          rfl
        rw [ht] at hlast
        rw [List.length_append, List.length_singleton, htake,
          List.take_of_length_le (by simp)] at hkinds
        rw [List.length_append, List.length_singleton, htake]
        have hkind : top.kind = frame.kind := by
          simpa using hkinds
        have hdef : top.definite = frame.definite := by simpa using hlast
        have htop : top = frame := by
          cases top
          cases frame
          simp_all
        rw [htop]

/-- The decoder that `restore` leaves is the one that the mark was taken in, up to the
recorded wire error, if and only if what the mark does not hold is untouched. -/
lemma restore_alike_iff {s t : CborDecoder} (hs : Inv s)
    (hagree : Agree s.frames.length s.depth s t) :
    (Alike s (restore s.mark t).2) ↔ Untouched s t := by
  have hdepth : min s.mark.depth maxDepth = s.depth := by
    have := hs.depth_le
    have hmax : maxDepth = 128 := rfl
    have hmod : s.mark.depth = s.depth := Nat.mod_eq_of_lt (by omega)
    omega
  have hrestore : (restore s.mark t).2 =
      { input := t.input, cursor := s.cursor, config := t.config, depth := s.depth
        counts := clearFrom s.depth t.counts
        frames := t.frames.take s.depth, lookahead := none, wireError := none
        expecting := t.expecting } := by
    change ({ t with cursor := _, depth := min s.mark.depth maxDepth
                     frames := t.frames.take (min s.mark.depth maxDepth)
                     counts := clearFrom (min s.mark.depth maxDepth) t.counts
                     lookahead := none, wireError := none } : CborDecoder) = _
    rw [hdepth]
    rfl
  have hcounts := clearFrom_eq_iff hs.counts_zero hagree.counts
  rw [Alike, hrestore]
  constructor
  · intro heq
    simp only [CborDecoder.mk.injEq] at heq
    obtain ⟨-, -, -, -, h4, h5, h6, -, h8⟩ := heq
    obtain ⟨hheight, hremaining⟩ := (take_frames_eq_iff hagree).mp h5
    exact ⟨h6.symm, hheight, hremaining, hcounts.mp h4, h8⟩
  · intro h
    rw [hcounts.mpr h.separators, (take_frames_eq_iff hagree).mpr ⟨h.height, h.remaining⟩,
      hagree.input, hagree.config, h.expecting, ← h.noPending]

/-- Going back to a mark is exact if and only if no token was pending at the save and the
calls in between have left alone the remaining count and the separator count of the
container that was open, and the expectation. -/
theorem backtrack_sameBehaviour_iff {s : CborDecoder} (hs : Reachable narrow s)
    {calls : List CborCall} (hopen : KeepsOpen narrow calls s) :
    SameBehaviour narrow s (backtrack narrow calls s) ↔
      Untouched s (run (step narrow) calls s).2 := by
  have hinv := inv_of_reachable hs
  have hagree := run_agree hopen
  rw [backtrack_eq, ← restore_alike_iff hinv hagree]
  refine ⟨fun h => ?_, sameBehaviour_of_alike⟩
  obtain ⟨hview, hexpecting⟩ := h.eqs
  simp only [view, View.mk.injEq] at hview
  obtain ⟨h1, h2, h3, h4, h5⟩ := hview
  rw [Alike]
  rcases hu : (restore s.mark (run (step narrow) calls s).2).2 with
    ⟨input, cursor, config, depth, counts, frames, lookahead, wireError, expecting⟩
  have hinput : input = s.input := by
    have := hagree.input
    rw [← this]
    exact (congrArg CborDecoder.input hu).symm
  have hconfig : config = s.config := by
    have := hagree.config
    rw [← this]
    exact (congrArg CborDecoder.config hu).symm
  rw [hu] at h1 h2 h3 h4 h5 hexpecting
  simp only at h1 h2 h3 h4 h5 hexpecting
  subst h1 h2 h3 h4 h5 hexpecting hinput hconfig
  rfl

/-- A decoder of `[1, 2]` inside the array, which is of indefinite length. -/
def insideIndefinite : CborDecoder :=
  (run (step narrowUnsigned) [.required .beginArray]
    (new ⟨[0x9f, 0x01, 0x02, 0xff], by decide⟩ Config.standard)).2

/-- A decoder of `[1, 2]` inside the array, which is of definite length. -/
def insideDefinite : CborDecoder :=
  (run (step narrowUnsigned) [.required .beginArray]
    (new ⟨[0x82, 0x01, 0x02], by decide⟩ Config.standard)).2

lemma reachable_insideIndefinite : Reachable narrowUnsigned insideIndefinite :=
  ⟨_, _, _, rfl⟩

/-- In an array of indefinite length, reading an element and going back is exact. -/
theorem backtrack_insideIndefinite :
    SameBehaviour narrowUnsigned insideIndefinite
      (backtrack narrowUnsigned [.required .number] insideIndefinite) := by
  refine (backtrack_sameBehaviour_iff reachable_insideIndefinite (by decide)).mpr
    ⟨rfl, by decide, ?_, ?_, rfl⟩
  · intro frame hlast
    have hopen : insideIndefinite.frames.getLast? = some ⟨.array, none⟩ := by decide
    rw [hopen] at hlast
    cases hlast
    decide
  · intro i hi hd
    have hdepth : insideIndefinite.depth = 1 := by decide
    obtain rfl : i = 0 := by omega
    revert hi
    decide

/-- In an array of definite length it is not: the element that was read and given back stays
charged to the array, so the array ends one element early. -/
theorem backtrack_insideDefinite :
    Reachable narrowUnsigned insideDefinite ∧
    KeepsOpen narrowUnsigned [.required .number] insideDefinite ∧
    (run (step narrowUnsigned) [.required .number, .required .arrayEntrySep] insideDefinite).1 =
      [.ok (.number (.u64 1)), .ok (.bool true)] ∧
    (run (step narrowUnsigned) [.required .number, .required .arrayEntrySep]
        (backtrack narrowUnsigned [.required .number] insideDefinite)).1 =
      [.ok (.number (.u64 1)), .ok (.bool false)] ∧
    ¬ SameBehaviour narrowUnsigned insideDefinite
        (backtrack narrowUnsigned [.required .number] insideDefinite) := by
  refine ⟨⟨_, _, _, rfl⟩, by decide, by decide, by decide, fun h => ?_⟩
  have := (h [.required .number, .required .arrayEntrySep]).1
  revert this
  decide

end RustBinary.Cbor
