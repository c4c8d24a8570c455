import RustBinary.Native.Primitive

/-!
# Backtracking in the self-describing decoder

A mark holds the cursor and the depth.  What the calls between a save and its restore can
touch below the depth of the mark is the counter of the container that was open; the
counters further out are as they were (`Agree`, `run_agree`), and `restore` clears those
further in.  So a mark misses three things: a token that was pending at the save, whose bytes
are behind the cursor of the mark; the separators counted in the open container; and the text
installed by `set_expecting`.  Backtracking is exact if and only if no token was pending and
the other two are as they were (`Untouched`).
-/

namespace RustBinary.Native

open Lib Lib.Act Decoder

/-! ## Decoders that differ in the recorded wire error -/

/-- The two decoders differ in the recorded wire error only. -/
def Alike (s t : Decoder) : Prop := t = { s with wireError := t.wireError }

section Respects

variable {ε α : Type}

lemma respects_get {f : Decoder → Act Decoder ε α}
    (hf : ∀ s w, f { s with wireError := w } = f s) (h : ∀ s, Respects Alike (f s)) :
    Respects Alike (Act.get >>= f) :=
  respects_get_bind (fun s t hst => by rw [hst]; exact (hf s t.wireError).symm) h

lemma respects_update {f : Decoder → Decoder}
    (hf : ∀ s w, ∃ w', f { s with wireError := w } = { f s with wireError := w' }) :
    Respects Alike (Act.modify f : Act Decoder ε Unit) := by
  refine respects_modify fun s t h => ?_
  obtain ⟨w', hw⟩ := hf s t.wireError
  rw [h, hw]
  rfl

lemma respects_fail (e : Error) : Respects Alike (fail e : Dec α) :=
  (closed_respects Alike).bind (respects_update fun _ _ => ⟨some e, rfl⟩) fun _ =>
    (closed_respects Alike).throw _

lemma respects_orFail {m : Act Decoder Error α} (hm : Respects Alike m) :
    Respects Alike (orFail m) :=
  respects_onErr hm respects_fail

lemma respects_popFrame : Respects Alike popFrame := by
  refine respects_get (fun _ _ => rfl) fun s => ?_
  split
  · exact (closed_respects Alike).panic
  · split
    · exact respects_update fun _ w => ⟨w, rfl⟩
    · exact (closed_respects Alike).panic

end Respects

lemma primitive_respects : Primitive fun _ m => Respects Alike m where
  toClosed := closed_respects Alike
  get := fun hf h => respects_get hf h
  fail := respects_fail
  take := by
    intro len
    have h := closed_respects (ε := Error) Alike
    exact respects_orFail <| respects_get (fun _ _ => rfl) fun _ =>
      h.bind (h.okOr _ _) fun _ => h.bind (h.atMost _ _ _) fun _ => h.bind (h.okOr _ _) fun _ =>
        h.bind (respects_update fun _ w => ⟨w, rfl⟩) fun _ => h.pure _
  peekByte := respects_orFail <| respects_get (fun _ _ => rfl) fun _ =>
    (closed_respects Alike).okOr _ _
  bumpCursor := by
    refine respects_get (fun _ _ => rfl) fun s => ?_
    split
    · exact respects_update fun _ w => ⟨w, rfl⟩
    · exact (closed_respects Alike).panic
  setLookahead := fun _ => respects_update fun _ w => ⟨w, rfl⟩
  pushFrame := by
    refine respects_get (fun _ _ => rfl) fun s => ?_
    split
    · exact respects_fail _
    · exact respects_update fun _ w => ⟨w, rfl⟩
  countSep := by
    have h := closed_respects (ε := Error) Alike
    have h' := closed_respects (ε := NextjsonError) Alike
    refine respects_get (fun _ _ => rfl) fun s => ?_
    split
    · exact respects_fail _
    · split
      · exact h'.bind (respects_orFail (h.okOr _ _)) fun _ =>
          h'.bind (respects_orFail (h.atMost _ _ _)) fun _ =>
            respects_update fun _ w => ⟨w, rfl⟩
      · exact h'.panic

/-! ## What the calls in between leave alone -/

/-- Below its `d`-th counter `t` is as `s`. -/
structure Agree (d : ℕ) (s t : Decoder) : Prop where
  input : t.input = s.input
  config : t.config = s.config
  counts : ∀ (i : ℕ) (hi : i < maxDepth), i + 1 < d → t.counts[i] = s.counts[i]

namespace Agree

variable {d : ℕ} {s t u : Decoder}

lemma refl (d : ℕ) (s : Decoder) : Agree d s s := ⟨rfl, rfl, fun _ _ _ => rfl⟩

lemma trans (h : Agree d s t) (h' : Agree d t u) : Agree d s u where
  input := h'.input.trans h.input
  config := h'.config.trans h.config
  counts := fun i hi hd => (h'.counts i hi hd).trans (h.counts i hi hd)

lemma mono {d' : ℕ} (h : Agree d s t) (hd : d' ≤ d) : Agree d' s t :=
  ⟨h.input, h.config, fun i hi hlt => h.counts i hi (by omega)⟩

end Agree

/-- `t` comes after `s` and the container of `s` has not been closed in between. -/
structure Keeps (s t : Decoder) : Prop where
  depth_le : s.depth ≤ t.depth
  agree : Agree s.depth s t

lemma Keeps.refl (s : Decoder) : Keeps s s := ⟨Nat.le_refl _, Agree.refl _ s⟩

lemma Keeps.trans {s t u : Decoder} (h : Keeps s t) (h' : Keeps t u) : Keeps s u :=
  ⟨h.depth_le.trans h'.depth_le, h.agree.trans (h'.agree.mono h.depth_le)⟩

/-- The methods that do not close a container keep the one that is open. -/
lemma primitive_keeps : Primitive fun _ m => Moves Keeps m := by
  refine primitive_moves Keeps.refl (fun _ _ _ => Keeps.trans) ?_ ?_ ?_ ?_ ?_
  · exact fun s e => ⟨Nat.le_refl _, rfl, rfl, fun _ _ _ => rfl⟩
  · exact fun s n => ⟨Nat.le_refl _, rfl, rfl, fun _ _ _ => rfl⟩
  · exact fun s token => ⟨Nat.le_refl _, rfl, rfl, fun _ _ _ => rfl⟩
  · exact fun s _ => ⟨Nat.le_succ _, rfl, rfl, fun _ _ _ => rfl⟩
  · intro s index count hi hd
    refine ⟨Nat.le_refl _, rfl, rfl, fun i hi' hlt => ?_⟩
    exact Vector.getElem_set_ne hi hi' (by omega)

/-- If the container at depth `d` of `s` is still open in `t`, then `t` is as `s` below it. -/
def Agrees (s t : Decoder) : Prop := ∀ d, d ≤ s.depth → d ≤ t.depth → Agree d s t

lemma Keeps.agrees {s t : Decoder} (h : Keeps s t) : Agrees s t := fun _ hd _ => h.agree.mono hd

lemma agrees_popFrame : Moves Agrees popFrame := by
  intro s
  rcases popFrame_cases s with ⟨d, hd, hdepth, heq⟩ | ⟨-, heq⟩
  · rw [heq]
    intro d' _ hd'
    refine ⟨rfl, rfl, fun i hi hlt => Vector.getElem_set_ne hd hi ?_⟩
    have : d' ≤ d := hd'
    omega
  · rw [heq]
    exact (Keeps.refl s).agrees

lemma agrees_exitContainer : Moves Agrees exitContainer := by
  intro s
  rw [exitContainer, get_bind_run]
  split
  · exact (primitive_keeps.fail _ s).agrees
  · refine bind_snd (primitive_keeps.byte s).agrees fun terminator t ht => ?_
    have hst : Keeps s t := by
      have := primitive_keeps.byte s
      rwa [ht] at this
    split
    · exact (hst.trans (primitive_keeps.fail _ t)).agrees
    · intro d hd hd'
      have hdt : d ≤ t.depth := hd.trans hst.depth_le
      exact (hst.agree.mono hd).trans (agrees_popFrame t d hdt hd')

lemma agrees_restore (mark : Mark) : Moves Agrees (restore mark) := by
  intro s d hd hd'
  refine ⟨rfl, rfl, fun i hi hlt => ?_⟩
  have hlt' : i < min mark.depth maxDepth := by
    have : d ≤ min mark.depth maxDepth := hd'
    omega
  simp only [restore, modify_run]
  rw [getElem_clearFrom]
  exact if_pos hlt'

/-! ## Marks -/

namespace Decoder

/-- The mark that `save` answers. -/
def mark (s : Decoder) : Mark := ⟨s.cursor, s.depth % 2 ^ 32⟩

/-- What a caller can tell about a decoder: the input that remains, the depth, the
separators counted at each depth, the limits and the pending token. -/
structure View where
  remaining : List UInt8
  cursor : ℕ
  config : Config
  depth : ℕ
  counts : Vector ℕ maxDepth
  lookahead : Option Token

def view (s : Decoder) : View :=
  ⟨s.input.bytes.drop s.cursor, s.cursor, s.config, s.depth, s.counts, s.lookahead⟩

end Decoder

/-- What a mark taken in `s` does not hold is in `t` as it was in `s`. -/
structure Untouched (s t : Decoder) : Prop where
  /-- No token was pending at the save. -/
  noPending : s.lookahead = none
  /-- No separator has been counted in the container that was open. -/
  separators : ∀ (i : ℕ) (hi : i < maxDepth), s.depth = i + 1 → t.counts[i] = s.counts[i]
  expecting : t.expecting = s.expecting

/-- The decoder that `restore` leaves is the one that the mark was taken in, up to the
recorded wire error, if and only if what the mark does not hold is untouched. -/
lemma restore_alike_iff {s t : Decoder} (hs : Inv s) (hagree : Agree s.depth s t) :
    Alike s (restore s.mark t).2 ↔ Untouched s t := by
  have hdepth : min s.mark.depth maxDepth = s.depth := by
    have := hs.depth_le
    have hmax : maxDepth = 128 := rfl
    have hmod : s.mark.depth = s.depth := Nat.mod_eq_of_lt (by omega)
    omega
  have hrestore : (restore s.mark t).2 =
      { input := t.input, cursor := s.cursor, config := t.config, depth := s.depth
        counts := clearFrom s.depth t.counts
        lookahead := none, wireError := none, expecting := t.expecting } := by
    change ({ t with cursor := _, depth := min s.mark.depth maxDepth
                     counts := clearFrom (min s.mark.depth maxDepth) t.counts
                     lookahead := none, wireError := none } : Decoder) = _
    rw [hdepth]
    rfl
  have hcounts := clearFrom_eq_iff hs.counts_zero hagree.counts
  rw [Alike, hrestore]
  constructor
  · intro heq
    simp only [Decoder.mk.injEq] at heq
    obtain ⟨-, -, -, -, h4, h5, -, h7⟩ := heq
    exact ⟨h5.symm, hcounts.mp h4, h7⟩
  · intro h
    rw [hcounts.mpr h.separators, hagree.input, hagree.config, h.expecting, ← h.noPending]

/-! ## Steps -/

section Steps

variable [Target]

/-- No call reads the recorded wire error. -/
lemma step_alike (call : Call) (s t : Decoder) (h : Alike s t) :
    (step call s).1 = (step call t).1 ∧ Alike (step call s).2 (step call t).2 :=
  primitive_respects.method respects_popFrame
    (fun _ => respects_update fun _ _ => ⟨none, rfl⟩)
    (fun _ => respects_get (fun _ _ => rfl) fun _ =>
      (closed_respects Alike).bind (respects_update fun _ w => ⟨w, rfl⟩) fun _ =>
        (closed_respects Alike).pure _) call s t h

/-- One call leaves what lies below the container that it does not close as it was. -/
lemma agrees_step (call : Call) (s : Decoder) : Agrees s (step call s).2 := by
  have keeps := primitive_keeps
  cases call with
  | endObject | endArray =>
      rw [step, method, map_snd]
      exact agrees_exitContainer s
  | restore mark =>
      rw [step, method, map_snd]
      exact agrees_restore mark s
  | setExpecting text =>
      have h : Keeps s (step (.setExpecting text) s).2 :=
        ⟨Nat.le_refl _, rfl, rfl, fun _ _ _ => rfl⟩
      exact h.agrees
  | save | isHumanReadable => exact (Keeps.refl s).agrees
  | beginObject | beginArray =>
      exact (keeps.map _ (keeps.bind (keeps.expectToken _ _) fun _ => keeps.pushFrame) s).agrees
  | objectKey => exact (keeps.map _ keeps.objectKey s).agrees
  | objectEntrySep | arrayEntrySep => exact (keeps.map _ keeps.containerSep s).agrees
  | arrayHasMore => exact (keeps.map _ (keeps.map _ keeps.peekEnd) s).agrees
  | unit | bool | number | string => exact (keeps.map _ (keeps.expectToken _ _) s).agrees
  | char => exact (keeps.map _ keeps.char s).agrees
  | skipValue => exact (keeps.map _ keeps.skipValueInner s).agrees
  | peekToken => exact (keeps.map _ keeps.peekTokenInner s).agrees
  | nextToken => exact (keeps.map _ keeps.takeToken s).agrees

/-! ## Backtracking -/

/-- The decoder after `save`, the calls `calls` and the `restore` of the mark. -/
def backtrack (calls : List Call) (s : Decoder) : Decoder :=
  (run step (.save :: (calls ++ [.restore s.mark])) s).2

/-- The calls do not close the container that is open in `s`. -/
def KeepsOpen (calls : List Call) (s : Decoder) : Prop :=
  Along step (fun t => s.depth ≤ t.depth) calls s

instance (calls : List Call) (s : Decoder) : Decidable (KeepsOpen calls s) :=
  inferInstanceAs (Decidable (Along _ _ _ _))

/-- `t` behaves on every later call as `s` does. -/
def SameBehaviour (s t : Decoder) : Prop := Lib.SameBehaviour step view s t

lemma step_save (s : Decoder) : step .save s = (.ok (.mark s.mark), s) := rfl

lemma backtrack_eq (calls : List Call) (s : Decoder) :
    backtrack calls s = (restore s.mark (run step calls s).2).2 := by
  have hrestore : ∀ t, (step (.restore s.mark) t).2 = (restore s.mark t).2 := fun t => rfl
  rw [backtrack, run_cons, step_save, run_append, run_cons, run_nil, hrestore]

/-- What the calls between a save and its restore leave alone. -/
lemma run_agree {calls : List Call} {s : Decoder} (hopen : KeepsOpen calls s) :
    Agree s.depth s (run step calls s).2 :=
  run_rel (Agree.refl _) (fun _ _ _ => Agree.trans)
    (fun call t ht ht' => agrees_step call t _ ht ht') calls hopen

/-- Decoders that differ in the recorded wire error only behave alike. -/
lemma sameBehaviour_of_alike {s t : Decoder} (h : Alike s t) : SameBehaviour s t := by
  refine sameBehaviour_of_bisim step_alike (fun s t hst => ?_) h
  rw [hst]
  rfl

/-- Decoders that behave alike have the same view and the same expectation. -/
lemma SameBehaviour.eqs {s t : Decoder} (h : SameBehaviour s t) :
    t.view = s.view ∧ t.expecting = s.expecting := by
  refine ⟨(h []).2, ?_⟩
  have hstep : ∀ u : Decoder, (run step [.setExpecting ""] u).1 =
      [.ok (.expecting u.expecting)] := fun u => rfl
  have hout := (h [.setExpecting ""]).1
  rw [hstep, hstep] at hout
  simpa using hout

/-- Going back to a mark is exact if and only if no token was pending at the save and the
calls in between have left alone the separator count of the container that was open, and the
expectation. -/
theorem backtrack_exact_iff {s : Decoder} (hs : Reachable s) {calls : List Call}
    (hopen : KeepsOpen calls s) :
    SameBehaviour s (backtrack calls s) ↔ Untouched s (run step calls s).2 := by
  have hagree := run_agree hopen
  rw [backtrack_eq, ← restore_alike_iff (inv_of_reachable hs) hagree]
  refine ⟨fun h => ?_, sameBehaviour_of_alike⟩
  obtain ⟨hview, hexpecting⟩ := h.eqs
  simp only [view, View.mk.injEq] at hview
  obtain ⟨-, h1, h2, h3, h4, h5⟩ := hview
  rw [Alike]
  rcases hu : (restore s.mark (run step calls s).2).2 with
    ⟨input, cursor, config, depth, counts, lookahead, wireError, expecting⟩
  have hinput : input = s.input := by
    have := hagree.input
    rw [← this]
    exact (congrArg Decoder.input hu).symm
  rw [hu] at h1 h2 h3 h4 h5 hexpecting
  simp only at h1 h2 h3 h4 h5 hexpecting
  subst h1 h2 h3 h4 h5 hexpecting hinput
  rfl

end Steps

section LittleEndian

local instance littleEndianTarget : Target := ⟨true⟩

/-- A decoder of `[null, true]` inside the array. -/
def insideArray : Decoder :=
  (run step [.beginArray] (new ⟨[tagArray, tagNull, tagTrue, tagEnd], by decide⟩ .standard)).2

lemma reachable_insideArray : Reachable insideArray := ⟨_, _, _, rfl⟩

/-- Reading an element and going back is exact when nothing was pending. -/
theorem backtrack_insideArray :
    SameBehaviour insideArray (backtrack [.unit, .peekToken, .number] insideArray) := by
  refine (backtrack_exact_iff reachable_insideArray (by decide)).mpr ⟨rfl, ?_, rfl⟩
  intro i hi hd
  have hdepth : insideArray.depth = 1 := by decide
  obtain rfl : i = 0 := by omega
  revert hi
  decide

/-- That decoder with the null peeked. -/
def pendingNull : Decoder := (run step [.peekToken] insideArray).2

/-- With a token pending it is not, even if nothing is called in between: the token that was
peeked before the save is gone. -/
theorem backtrack_pendingNull :
    Reachable pendingNull ∧ KeepsOpen [] pendingNull ∧
      (run step [.nextToken] pendingNull).1 = [.ok (.token .null)] ∧
      (run step [.nextToken] (backtrack [] pendingNull)).1 = [.ok (.token (.bool true))] ∧
      ¬ SameBehaviour pendingNull (backtrack [] pendingNull) := by
  refine ⟨reachable_insideArray.run _, by decide, by decide, by decide, fun h => ?_⟩
  have := (h [.nextToken]).1
  revert this
  decide

end LittleEndian

end RustBinary.Native
