import RustBinary.Native.Decoder

/-!
# The methods of the self-describing decoder from their primitive steps

As for the CBOR decoder, a property of actions that the primitive steps have and that
survives sequencing holds of every method that does not close a container.  The primitive
steps are fewer here: the wire has no counts, so reading a token only moves the cursor.
-/

namespace RustBinary.Native

open Lib Lib.Act Decoder

namespace Decoder

/-- The error that every wire error becomes at the `FormatDecoder` boundary. -/
def wireFailure : NextjsonError := .custom "rustbinary wire error"

/-- The decoder with the wire error `e` recorded. -/
def failed (s : Decoder) (e : Error) : Decoder := { s with wireError := some e }

variable (s : Decoder)

@[simp] lemma fail_run {α : Type} (e : Error) :
    (fail e : Dec α) s = (.err wireFailure, s.failed e) := rfl

@[simp] lemma orFail_pure {α : Type} (a : α) : orFail (pure a) = pure a := rfl

@[simp] lemma orFail_throw {α : Type} (e : Error) : (orFail (throw e) : Dec α) = fail e := rfl

/-- `take` moves the cursor within the byte limit, or fails and leaves it. -/
lemma take_cases (len : ℕ) :
    (∃ bytes, (∀ l, s.config.limit = some l → s.cursor + len ≤ l) ∧
      take len s = (.ok bytes, { s with cursor := s.cursor + len })) ∨
    ∃ e, take len s = (.err e, s) := by
  rw [take, get_bind_run, checkedAdd]
  by_cases hmax : s.cursor + len ≤ u64Max
  · rw [if_pos hmax, okOr_some, pure_bind]
    rcases atMost_cases (σ := Decoder) s.config.limit (s.cursor + len) Error.sizeLimit with
      ⟨hle, hat⟩ | ⟨l, hl, hlt, hat⟩
    · rw [hat, pure_bind]
      cases slice s.input.bytes s.cursor (s.cursor + len) with
      | none => exact .inr ⟨_, rfl⟩
      | some bytes => exact .inl ⟨bytes, hle, rfl⟩
    · rw [hat]
      exact .inr ⟨_, rfl⟩
  · rw [if_neg hmax]
    exact .inr ⟨_, rfl⟩

/-- `count_sep` counts one separator in the open container. -/
lemma countSep_cases :
    (∃ (index : ℕ) (hi : index < maxDepth), s.depth = index + 1 ∧
      (∀ l, s.config.collectionLimit = some l → s.counts[index] + 1 ≤ l) ∧
      countSep s =
        (.ok (), { s with counts := s.counts.set index (s.counts[index] + 1) hi })) ∨
    (∃ e, countSep s = (.err wireFailure, s.failed e)) ∨
    (maxDepth < s.depth ∧ countSep s = (.panic, s)) := by
  rw [countSep, get_bind_run]
  rcases hd : s.depth with _ | index
  · exact .inr (.inl ⟨_, rfl⟩)
  · dsimp only
    by_cases hi : index < maxDepth
    · rw [dif_pos hi]
      by_cases hmax : s.counts[index] + 1 ≤ u64Max
      · rw [checkedAdd, if_pos hmax, okOr_some, orFail_pure, pure_bind]
        rcases atMost_cases (σ := Decoder) s.config.collectionLimit (s.counts[index] + 1)
          Error.collectionLimit with ⟨hle, hat⟩ | ⟨l, hl, hlt, hat⟩
        · rw [hat]
          exact .inl ⟨index, hi, rfl, hle, by rw [← hd]; rfl⟩
        · rw [hat]
          exact .inr (.inl ⟨_, rfl⟩)
      · rw [checkedAdd, if_neg hmax]
        exact .inr (.inl ⟨_, rfl⟩)
    · rw [dif_neg hi]
      exact .inr (.inr ⟨by omega, rfl⟩)

/-- The last step of `exit_container` closes the open container. -/
lemma popFrame_cases :
    (∃ (d : ℕ) (hd : d < maxDepth), s.depth = d + 1 ∧
      popFrame s = (.ok (), { s with depth := d, counts := s.counts.set d 0 hd })) ∨
    ((s.depth = 0 ∨ maxDepth < s.depth) ∧ popFrame s = (.panic, s)) := by
  rw [popFrame, get_bind_run]
  rcases s.depth with _ | d
  · exact .inr ⟨.inl rfl, rfl⟩
  · dsimp only
    by_cases hd : d < maxDepth
    · rw [dif_pos hd]
      exact .inl ⟨d, hd, rfl, rfl⟩
    · rw [dif_neg hd]
      exact .inr ⟨.inr (by omega), rfl⟩

end Decoder

/-- A property of actions that the steps of the decoder have with which tokens are read.  As for the
CBOR decoder, an action that reads the decoder may not depend on the recorded wire error. -/
structure Reads (P : (α : Type) → Dec α → Prop) : Prop extends Closed P where
  get : ∀ {α : Type} {f : Decoder → Dec α},
    (∀ s w, f { s with wireError := w } = f s) → (∀ s, P α (f s)) → P α (Act.get >>= f)
  fail : ∀ {α : Type} (e : Error), P α (fail e)
  take : ∀ len, P _ (orFail (take len))
  peekByte : P _ (orFail peekByte)
  setLookahead : ∀ token, P _ (modify fun s => { s with lookahead := token })

/-- A property of actions that the steps of the decoder have which are held against the limits. -/
structure Guarded (P : (α : Type) → Dec α → Prop) : Prop extends Reads P where
  pushFrame : P _ pushFrame
  countSep : P _ countSep

/-- A property of actions that all steps of the decoder have: skipping a value moves the cursor over
a terminator without a check. -/
structure Primitive (P : (α : Type) → Dec α → Prop) : Prop extends Guarded P where
  bumpCursor : P _ bumpCursor

namespace Reads

variable {P : (α : Type) → Dec α → Prop} (h : Reads P)

include h

lemma byte : P _ byte := by
  refine h.bind (h.take 1) fun bytes => ?_
  cases bytes with
  | nil => exact h.panic
  | cons first rest => exact h.pure first

lemma invalidType {α : Type} (expected : String) (found : Token) :
    P α (invalidType expected found) :=
  h.get (fun _ _ => rfl) fun _ => h.throw _

lemma peekEnd : P _ peekEnd := by
  refine h.get (fun _ _ => rfl) fun s => ?_
  split
  · exact h.pure _
  · exact h.bind h.peekByte fun _ => h.pure _

section Target

variable [Target]

/-! ## Numbers -/

lemma literal (width : ℕ) : P _ (literal width) :=
  h.get (fun _ _ => rfl) fun _ => h.bind (h.take width) fun _ => h.pure _

lemma canonical (width minimum : ℕ) : P _ (canonical width minimum) := by
  refine h.bind (h.literal width) fun value => ?_
  split
  · exact h.fail _
  · exact h.pure value

lemma varint : P _ varint := by
  refine h.bind h.byte fun marker => h.get (fun _ _ => rfl) fun s => ?_
  split
  · split
    · exact h.pure _
    · refine h.bind ?_ fun payloadLen => h.bind (h.take payloadLen) fun bytes => ?_
      · split_ifs <;> first | exact h.pure _ | exact h.fail _
      · split
        · exact h.pure _
        · exact h.fail _
  · split_ifs <;> first | exact h.pure _ | exact h.canonical _ _ | exact h.fail _

lemma unsigned (fixedBytes targetMax : ℕ) : P _ (unsigned fixedBytes targetMax) := by
  refine h.get (fun _ _ => rfl) fun s => h.bind ?_ fun value => ?_
  · split
    · exact h.varint
    · exact h.bind (h.take _) fun _ => h.pure _
  · split
    · exact h.fail _
    · exact h.pure _

lemma signed (fixedBytes : ℕ) (min max : ℤ) : P _ (signed fixedBytes min max) := by
  refine h.get (fun _ _ => rfl) fun s => h.bind ?_ fun value => ?_
  · split
    · exact h.bind h.varint fun _ => h.pure _
    · exact h.bind (h.take _) fun _ => h.pure _
  · split
    · exact h.fail _
    · exact h.pure _

lemma readString : P _ readString := by
  refine h.bind (h.unsigned _ _) fun len => h.bind (h.take len) fun bytes => ?_
  split
  · exact h.pure _
  · exact h.fail _

/-! ## Tokens -/

lemma readToken : P _ readToken := by
  refine h.bind h.byte fun tag => ?_
  refine h.ite (h.pure _) <| h.ite (h.pure _) <| h.ite (h.pure _) <| ?_
  refine h.ite (h.map _ (h.unsigned _ _)) <| h.ite (h.map _ (h.unsigned _ _)) <| ?_
  refine h.ite (h.map _ (h.signed _ _ _)) <| h.ite (h.map _ (h.signed _ _ _)) <| ?_
  refine h.ite (h.map _ (h.literal _)) <| h.ite (h.map _ (h.literal _)) <| ?_
  refine h.ite (h.map _ h.readString) <| h.ite (h.pure _) <| h.ite (h.pure _) <| ?_
  exact h.ite (h.fail _) (h.fail _)

lemma peekTokenInner : P _ peekTokenInner := by
  refine h.get (fun _ _ => rfl) fun s => ?_
  split
  · exact h.pure _
  · exact h.bind h.readToken fun token => h.bind (h.setLookahead (some token)) fun _ => h.pure _

lemma takeToken : P _ takeToken := by
  refine h.get (fun _ _ => rfl) fun s => ?_
  split
  · exact h.bind (h.setLookahead none) fun _ => h.pure _
  · exact h.readToken

lemma expectToken {α : Type} (expected : String) (pick : Token → Option α) :
    P _ (expectToken expected pick) := by
  refine h.bind h.takeToken fun token => ?_
  split
  · exact h.pure _
  · exact h.invalidType _ _

lemma char : P _ char := by
  refine h.bind (h.expectToken _ _) fun text => ?_
  split
  · exact h.pure _
  · exact h.fail _

lemma objectKey : P _ objectKey := by
  refine h.bind h.peekEnd fun finished => ?_
  split
  · exact h.pure _
  · exact h.map _ (h.expectToken _ _)

end Target

end Reads

namespace Guarded

variable {P : (α : Type) → Dec α → Prop} (h : Guarded P)

include h

lemma containerSep : P _ containerSep := by
  refine h.bind h.countSep fun _ => h.get (fun _ _ => rfl) fun s => ?_
  split
  · exact h.pure _
  · exact h.bind h.peekByte fun _ => h.pure _

variable [Target]

/-- The property holds of the method behind every call but a skip and a restore, if it holds of the
end of a container. -/
lemma method (hpop : P _ popFrame) (hexpecting : ∀ text, P _ (setExpecting text)) {call : Call}
    (hskip : call ≠ .skipValue) (hrestore : ∀ mark, call ≠ .restore mark) : P _ (method call) := by
  have hexit : P _ exitContainer := by
    refine h.get (fun _ _ => rfl) fun s => ?_
    split
    · exact h.fail _
    · refine h.bind h.byte fun terminator => ?_
      split
      · exact h.fail _
      · exact hpop
  have hbegin : ∀ {expected : String} {pick : Token → Option Unit},
      P _ (do Decoder.expectToken expected pick; Decoder.pushFrame) :=
    h.bind (h.expectToken _ _) fun _ => h.pushFrame
  have hsave : P _ save := h.get (fun _ _ => rfl) fun _ => h.pure _
  cases call with
  | beginObject => exact h.map _ hbegin
  | endObject => exact h.map _ hexit
  | objectKey => exact h.map _ h.objectKey
  | objectEntrySep => exact h.map _ h.containerSep
  | beginArray => exact h.map _ hbegin
  | endArray => exact h.map _ hexit
  | arrayHasMore => exact h.map _ (h.map _ h.peekEnd)
  | arrayEntrySep => exact h.map _ h.containerSep
  | unit => exact h.map _ (h.expectToken _ _)
  | bool => exact h.map _ (h.expectToken _ _)
  | number => exact h.map _ (h.expectToken _ _)
  | string => exact h.map _ (h.expectToken _ _)
  | char => exact h.map _ h.char
  | skipValue => exact absurd rfl hskip
  | peekToken => exact h.map _ h.peekTokenInner
  | nextToken => exact h.map _ h.takeToken
  | save => exact h.map _ hsave
  | restore mark => exact absurd rfl (hrestore mark)
  | setExpecting text => exact h.map _ (hexpecting text)
  | isHumanReadable => exact h.pure _

end Guarded

namespace Primitive

variable {P : (α : Type) → Dec α → Prop} (h : Primitive P) [Target]

include h

lemma skipRound (nested : ℕ) : P _ (skipRound nested) := by
  refine h.bind h.peekByte fun next => ?_
  split
  · refine h.bind h.bumpCursor fun _ => ?_
    split
    · exact h.panic
    · exact h.pure _
    · exact h.pure _
  · refine h.bind h.readToken fun token => ?_
    cases token with
    | beginArray | beginObject =>
        dsimp only
        split
        · exact h.pure _
        · exact h.panic
    | null | bool | number | str | endArray | endObject => exact h.pure _

lemma skipValueInner : P _ skipValueInner := by
  refine h.bind h.takeToken fun token => ?_
  cases token with
  | beginArray | beginObject =>
      exact h.get (fun _ _ => rfl) fun s => h.iterate h.skipRound _ _
  | null | bool | number | str | endArray | endObject => exact h.pure _

/-- The property holds of the method behind every call, if it holds of what the primitive
steps are not enough for. -/
lemma method (hpop : P _ popFrame) (hrestore : ∀ mark, P _ (restore mark))
    (hexpecting : ∀ text, P _ (setExpecting text)) (call : Call) : P _ (method call) := by
  by_cases hskip : call = .skipValue
  · rw [hskip]
    exact h.map _ h.skipValueInner
  · by_cases hmark : ∃ mark, call = .restore mark
    · obtain ⟨mark, rfl⟩ := hmark
      exact h.map _ (hrestore mark)
    · exact h.toGuarded.method hpop hexpecting hskip fun mark heq => hmark ⟨mark, heq⟩

end Primitive

section Moves

variable {R : Decoder → Decoder → Prop}

/-- The steps that read move the decoder along a preorder that admits what each of them can do to
it. -/
lemma reads_moves (hr : ∀ s, R s s) (ht : ∀ s t u, R s t → R t u → R s u)
    (hfail : ∀ s e, R s (s.failed e))
    (hcursor : ∀ (s : Decoder) len, (∀ l, s.config.limit = some l → s.cursor + len ≤ l) →
      R s { s with cursor := s.cursor + len })
    (hlookahead : ∀ (s : Decoder) token, R s { s with lookahead := token }) :
    Reads fun _ m => Moves R m where
  toClosed := closed_moves hr ht
  get := fun _ hf s => hf s s
  fail := fun e s => hfail s e
  take := by
    intro len
    refine moves_onErr ht (fun s => ?_) fun e s => hfail s e
    rcases take_cases s len with ⟨bytes, hle, h⟩ | ⟨e, h⟩
    · rw [h]
      exact hcursor s len hle
    · rw [h]
      exact hr s
  peekByte := by
    have h : Closed fun _ m => Moves (ε := Error) R m := closed_moves hr ht
    exact moves_onErr ht (fun s => h.okOr _ _ s) fun e s => hfail s e
  setLookahead := fun token s => hlookahead s token

/-- So do the steps that are held against the limits, if it admits one more level and one more
entry within them. -/
lemma guarded_moves (hreads : Reads fun _ m => Moves R m)
    (hpush : ∀ s : Decoder, s.depth < s.config.depthLimit → R s { s with depth := s.depth + 1 })
    (hcount : ∀ (s : Decoder) index count (hi : index < maxDepth), s.depth = index + 1 →
      (∀ l, s.config.collectionLimit = some l → count ≤ l) →
      R s { s with counts := s.counts.set index count hi }) :
    Guarded fun _ m => Moves R m where
  toReads := hreads
  pushFrame := by
    intro s
    rw [pushFrame, get_bind_run]
    by_cases hle : s.config.depthLimit ≤ s.depth
    · rw [if_pos hle]
      exact hreads.fail _ s
    · rw [if_neg hle]
      exact hpush s (Nat.lt_of_not_le hle)
  countSep := by
    intro s
    rcases countSep_cases s with ⟨index, hi, hd, hle, h⟩ | ⟨e, h⟩ | ⟨-, h⟩
    · rw [h]
      exact hcount s index _ hi hd hle
    · rw [h]
      exact hreads.fail e s
    · rw [h]
      exact hreads.panic (α := Unit) s

/-- The primitive steps move the decoder along a preorder that admits what each of them can
do to it. -/
lemma primitive_moves (hr : ∀ s, R s s)
    (ht : ∀ s t u, R s t → R t u → R s u) (hfail : ∀ s e, R s (s.failed e))
    (hcursor : ∀ (s : Decoder) n, R s { s with cursor := n })
    (hlookahead : ∀ (s : Decoder) token, R s { s with lookahead := token })
    (hpush : ∀ s : Decoder, s.depth < s.config.depthLimit → R s { s with depth := s.depth + 1 })
    (hcount : ∀ (s : Decoder) index count (hi : index < maxDepth), s.depth = index + 1 →
      R s { s with counts := s.counts.set index count hi }) :
    Primitive fun _ m => Moves R m where
  toGuarded :=
    guarded_moves (reads_moves hr ht hfail (fun s len _ => hcursor s _) hlookahead) hpush
      fun s index count hi hd _ => hcount s index count hi hd
  bumpCursor := by
    intro s
    rw [bumpCursor, get_bind_run]
    split
    · exact hcursor s _
    · exact hr s

end Moves

/-! ## The reachable states -/

/-- The invariant of the decoder, whatever marks it was restored to. -/
structure Inv (s : Decoder) : Prop where
  depth_le : s.depth ≤ maxDepth
  counts_zero : ∀ (i : ℕ) (hi : i < maxDepth), s.depth ≤ i → s.counts[i] = 0

lemma inv_new (input : Input) (config : Config) : Inv (new input config) :=
  ⟨Nat.zero_le _, fun _ hi _ => Vector.getElem_replicate hi⟩

lemma primitive_inv : Primitive fun _ m => Moves (fun s t => Inv s → Inv t) m := by
  refine primitive_moves (fun _ h => h) (fun _ _ _ h1 h2 h => h2 (h1 h)) ?_ ?_ ?_ ?_ ?_
  · exact fun s e h => ⟨h.depth_le, h.counts_zero⟩
  · exact fun s n h => ⟨h.depth_le, h.counts_zero⟩
  · exact fun s token h => ⟨h.depth_le, h.counts_zero⟩
  · intro s hlt h
    have hmax := s.config.depthLimit_le
    refine ⟨by simp only; omega, fun i hi hle => h.counts_zero i hi ?_⟩
    simp only at hle
    omega
  · intro s index count hi hd h
    refine ⟨h.depth_le, fun i hi' hle => ?_⟩
    simp only at hle
    rw [Vector.getElem_set_ne _ _ (by omega)]
    exact h.counts_zero i hi' hle

lemma inv_popFrame : Moves (fun s t => Inv s → Inv t) popFrame := by
  intro s h
  rcases popFrame_cases s with ⟨d, hd, hdepth, heq⟩ | ⟨-, heq⟩
  · rw [heq]
    refine ⟨hd.le, fun i hi hle => ?_⟩
    simp only at hle ⊢
    by_cases hid : i = d
    · subst hid
      simp
    · rw [Vector.getElem_set_ne _ _ (Ne.symm hid)]
      exact h.counts_zero i hi (by omega)
  · rw [heq]
    exact h

lemma inv_restore (mark : Mark) : Moves (fun s t => Inv s → Inv t) (restore mark) := by
  intro s h
  refine ⟨Nat.min_le_right _ _, fun i hi hle => ?_⟩
  simp only [restore, modify_run] at hle ⊢
  rw [getElem_clearFrom]
  exact if_neg (Nat.not_lt.mpr hle)

variable [Target]

/-- The states that calls on a new decoder lead to. -/
def Reachable (s : Decoder) : Prop := ∃ input config calls, s = (run step calls (new input config)).2

lemma Reachable.run {s : Decoder} (h : Reachable s) (calls : List Call) :
    Reachable (run step calls s).2 := by
  obtain ⟨input, config, calls', rfl⟩ := h
  exact ⟨input, config, calls' ++ calls, by rw [run_append]⟩

/-- Every call keeps the invariant. -/
lemma inv_step (call : Call) {s : Decoder} (h : Inv s) : Inv (step call s).2 :=
  primitive_inv.method inv_popFrame inv_restore
    (fun _ _ h => ⟨h.depth_le, h.counts_zero⟩) call s h

/-- The invariant holds of every reachable decoder. -/
theorem inv_of_reachable {s : Decoder} (h : Reachable s) : Inv s := by
  obtain ⟨input, config, calls, rfl⟩ := h
  exact run_preserves (fun call _ => inv_step call) calls (inv_new input config)

end RustBinary.Native
