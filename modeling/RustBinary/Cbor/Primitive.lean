import RustBinary.Cbor.Steps

/-!
# The methods of the CBOR decoder from their primitive steps

Every method of the decoder is put together from a handful of steps: reading bytes, setting
the lookahead, charging an element to the open container, opening a container, passing a
separator and failing.  A property of actions that holds of these steps and survives
sequencing holds of every method that does not close a container; the methods that close
one have it as soon as `popFrame` does.

The property is not asked to hold of `get`.  An action that reads the decoder has it when
what it does next has it whatever was read, and never depends on the recorded wire error.
-/

namespace RustBinary.Cbor

open Lib Lib.Act CborDecoder

/-- A property of actions that the steps of the decoder have, if the cursor moves over a byte only
after a look at it. -/
structure Guarded (P : (α : Type) → Dec α → Prop) : Prop extends Closed P where
  get : ∀ {α : Type} {f : CborDecoder → Dec α},
    (∀ s w, f { s with wireError := w } = f s) → (∀ s, P α (f s)) → P α (Act.get >>= f)
  fail : ∀ {α : Type} (e : Error), P α (fail e)
  take : ∀ len, P _ (orFail (take len))
  peekByte : P _ (orFail peekByte)
  passByte : ∀ {α : Type} (c : UInt8 → Prop) [DecidablePred c] {f g : UInt8 → Dec α},
    (∀ byte, P α (f byte)) → (∀ byte, P α (g byte)) →
      P α (orFail CborDecoder.peekByte >>= fun byte =>
        if c byte then bumpCursor >>= fun _ => f byte else g byte)
  clearLookahead : P _ (modify fun s => { s with lookahead := none })
  decRemaining : P _ decRemaining
  enterContainer : ∀ kind definite, P _ (enterContainer kind definite)
  countElement : P _ countElement

/-- A property of actions that all steps of the decoder have, each on its own. -/
structure Primitive (P : (α : Type) → Dec α → Prop) : Prop extends Guarded P where
  bumpCursor : P _ bumpCursor

/-- Passing a byte, for a property that both steps of it have. -/
lemma passByte_of_bump {P : (α : Type) → Dec α → Prop} (h : Closed P)
    (hpeek : P _ (orFail peekByte)) (hbump : P _ bumpCursor) {α : Type} (c : UInt8 → Prop)
    [DecidablePred c] {f g : UInt8 → Dec α} (hf : ∀ byte, P α (f byte))
    (hg : ∀ byte, P α (g byte)) :
    P α (orFail peekByte >>= fun byte =>
      if c byte then bumpCursor >>= fun _ => f byte else g byte) :=
  h.bind hpeek fun byte => h.ite (h.bind hbump fun _ => hf byte) (hg byte)

namespace Guarded

variable {P : (α : Type) → Dec α → Prop} (h : Guarded P)

include h

/-! ## Heads -/

lemma takeExact (len : ℕ) : P _ (takeExact len) := by
  refine h.bind (h.take len) fun bytes => ?_
  split
  · exact h.pure _
  · exact h.panic

lemma takeValue (len : ℕ) : P _ (takeValue len) :=
  h.bind (h.takeExact len) fun _ => h.pure _

lemma readArgument (major ai : ℕ) : P _ (readArgument major ai) := by
  rw [CborDecoder.readArgument]
  split_ifs <;> first
    | exact h.pure _
    | exact h.fail _
    | exact h.takeValue _
    | exact h.panic

lemma readHead : P _ readHead :=
  h.bind (h.takeExact 1) fun _ => h.bind (h.readArgument _ _) fun _ => h.pure _

lemma getValue (argument : HeadArg) : P _ argument.getValue := by
  cases argument <;> first | exact h.pure _ | exact h.panic

lemma atEnd (frame : Frame) : P _ (atEnd frame) := by
  rw [CborDecoder.atEnd]
  split
  · exact h.pure _
  · exact h.bind h.peekByte fun _ => h.pure _

lemma invalidType {α : Type} (expected : String) (found : Token) :
    P α (invalidType expected found) :=
  h.get (fun _ _ => rfl) fun _ => h.throw _

/-! ## Texts, bignums and simple values -/

lemma takeChunk (major : ℕ) (wrongChunk invalidLength : String) (head : ℕ × HeadArg) :
    P _ (takeChunk major wrongChunk invalidLength head) := by
  rw [CborDecoder.takeChunk.eq_def]
  split
  · exact h.fail _
  · split
    · exact h.take _
    · exact h.fail _

lemma readChunks (major : ℕ) (wrongChunk invalidLength : String) :
    P _ (readChunks major wrongChunk invalidLength) := by
  refine h.get (fun _ _ => rfl) fun s => h.iterate (fun out => ?_) _ _
  refine h.passByte (· = 0xff) (fun _ => h.pure _) fun _ => ?_
  exact h.bind h.readHead fun _ => h.bind (h.takeChunk _ _ _ _) fun _ => h.pure _

lemma readText (argument : HeadArg) : P _ (readText argument) := by
  rw [CborDecoder.readText.eq_def]
  split
  · refine h.bind (h.take _) fun bytes => ?_
    split
    · exact h.pure _
    · exact h.fail _
  · refine h.bind (h.readChunks _ _ _) fun bytes => ?_
    split
    · exact h.pure _
    · exact h.fail _
  · exact h.fail _

lemma minusOneSub (bits : ℕ) (value : ℤ) : P _ (minusOneSub bits value) := by
  rw [CborDecoder.minusOneSub]
  split
  · exact h.pure _
  · exact h.panic

lemma readBignum (negative : Bool) : P _ (readBignum negative) := by
  refine h.bind h.readHead fun ⟨major, argument⟩ => ?_
  dsimp only
  split
  · exact h.fail _
  · split
    · refine h.bind (h.take _) fun bytes => ?_
      split
      · exact h.fail _
      · split
        · exact h.bind (h.minusOneSub _ _) fun _ => h.pure _
        · exact h.pure _
    · exact h.fail _
    · exact h.fail _

lemma containerLength (argument : HeadArg) (invalid : String) :
    P _ (containerLength argument invalid) := by
  rw [CborDecoder.containerLength.eq_def]
  split <;> first | exact h.pure _ | exact h.fail _

lemma readFloat (len : ℕ) (toNumber : List UInt8 → Number) :
    P _ (do
      CborDecoder.decRemaining
      let bytes ← CborDecoder.takeExact len
      Pure.pure (Token.number (toNumber bytes))) :=
  h.bind h.decRemaining fun _ => h.bind (h.takeExact len) fun _ => h.pure _

lemma readSimple (argument : HeadArg) : P _ (readSimple argument) := by
  rw [CborDecoder.readSimple.eq_def]
  split
  · exact h.bind h.decRemaining fun _ => h.pure _
  · exact h.bind h.decRemaining fun _ => h.pure _
  · exact h.bind h.decRemaining fun _ => h.pure _
  · exact h.fail _
  · exact h.bind (h.take 1) fun _ => h.fail _
  · exact h.readFloat 2 fun bytes => .f64 (halfToF64 (beNat bytes))
  · exact h.readFloat 4 fun bytes => .f64 (f32ToF64 (beNat bytes))
  · exact h.readFloat 8 fun bytes => .f64 (beNat bytes)
  · exact h.fail _
  · refine h.get (fun _ _ => rfl) fun s => ?_
    split
    · exact h.fail _
    · split <;> exact h.pure _

/-! ## Tokens -/

lemma tokenOf (major : ℕ) (argument : HeadArg) : P _ (tokenOf major argument) := by
  rw [CborDecoder.tokenOf.eq_def]
  split
  · exact h.bind h.decRemaining fun _ => h.bind (h.getValue _) fun _ => h.pure _
  · refine h.bind h.decRemaining fun _ => h.bind (h.getValue _) fun negative => ?_
    split
    · exact h.bind (h.minusOneSub _ _) fun _ => h.pure _
    · exact h.bind (h.minusOneSub _ _) fun _ => h.pure _
  · exact h.fail _
  · exact h.bind (h.readText _) fun _ => h.bind h.decRemaining fun _ => h.pure _
  · exact h.bind h.decRemaining fun _ => h.bind (h.containerLength _ _) fun _ =>
      h.bind (h.enterContainer _ _) fun _ => h.pure _
  · exact h.bind h.decRemaining fun _ => h.bind (h.containerLength _ _) fun _ =>
      h.bind (h.enterContainer _ _) fun _ => h.pure _
  · refine h.bind (h.getValue _) fun tag => ?_
    split
    · exact h.bind (h.readBignum _) fun _ => h.bind h.decRemaining fun _ => h.pure _
    · split
      · exact h.bind (h.readBignum _) fun _ => h.bind h.decRemaining fun _ => h.pure _
      · exact h.pure _
  · exact h.bind (h.readSimple _) fun _ => h.pure _
  · exact h.panic

lemma tokenRound (u : Unit) : P _ (tokenRound u) :=
  h.bind h.readHead fun _ => h.tokenOf _ _

lemma readToken : P _ readToken :=
  h.get (fun _ _ => rfl) fun _ => h.iterate h.tokenRound _ _

lemma peekTokenInner
    (hset : ∀ token, P _ (modify fun s => { s with lookahead := some token })) :
    P _ peekTokenInner := by
  refine h.get (fun _ _ => rfl) fun s => ?_
  split
  · exact h.pure _
  · exact h.bind h.readToken fun _ => h.bind (hset _) fun _ => h.pure _

lemma takeToken : P _ takeToken := by
  refine h.get (fun _ _ => rfl) fun s => ?_
  split
  · exact h.bind h.clearLookahead fun _ => h.pure _
  · exact h.readToken

/-! ## Methods that do not close a container -/

lemma expectToken {α : Type} (expected : String) (pick : Token → Option α) :
    P _ (expectToken expected pick) := by
  refine h.bind h.takeToken fun token => ?_
  split
  · exact h.pure _
  · exact h.invalidType _ _

lemma char : P _ char := by
  refine h.bind (h.expectToken _ _) fun text => ?_
  split
  · exact h.pure _
  · exact h.fail _

lemma objectKey : P _ objectKey := by
  refine h.get (fun _ _ => rfl) fun s => ?_
  split
  · refine h.bind h.clearLookahead fun _ => ?_
    split <;> first | exact h.pure _ | exact h.invalidType _ _
  · split
    · exact h.fail _
    · split
      · exact h.fail _
      · refine h.bind (h.atEnd _) fun finished => ?_
        split
        · exact h.pure _
        · refine h.bind h.readHead fun ⟨major, argument⟩ => ?_
          dsimp only
          split
          · exact h.invalidType _ _
          · refine h.bind (h.readText _) fun token => ?_
            split <;> first | exact h.pure _ | exact h.panic

lemma hasMore : P _ hasMore := by
  refine h.get (fun _ _ => rfl) fun s => ?_
  split
  · exact h.pure _
  · split
    · exact h.fail _
    · exact h.bind (h.atEnd _) fun _ => h.pure _

lemma entrySep : P _ entrySep := h.bind h.countElement fun _ => h.hasMore

lemma optionTag : P _ optionTag := by
  have hrest : P _ (do
      let s ← Act.get
      if s.lookahead = some .null then do
        modify fun s => { s with lookahead := none }
        Pure.pure OptionTag.none
      else Pure.pure OptionTag.some) := by
    refine h.get (fun _ _ => rfl) fun s => ?_
    split
    · exact h.bind h.clearLookahead fun _ => h.pure _
    · exact h.pure _
  rw [CborDecoder.optionTag, atNull]
  simp only [bind_assoc]
  refine h.get (fun _ _ => rfl) fun s => ?_
  cases s.lookahead with
  | some token =>
      simp only [pure_bind]
      exact hrest
  | none =>
      simp only [bind_assoc, pure_bind]
      exact h.passByte (fun byte => (byte == 0xf6) = true) (fun _ => h.pure _) fun _ => hrest

lemma u8 (narrow : Number → Option UInt8) : P _ (u8 narrow) := by
  refine h.bind (h.expectToken _ _) fun value => ?_
  split
  · exact h.pure _
  · exact h.throw _

lemma bytesRound (narrow : Number → Option UInt8) (out : List UInt8) :
    P _ (bytesRound narrow out) := by
  refine h.bind h.hasMore fun more => ?_
  split
  · refine h.bind (h.u8 narrow) fun byte => h.bind h.entrySep fun another => ?_
    split <;> exact h.pure _
  · exact h.pure _

lemma readBytes (argument : HeadArg) : P _ (readBytes argument) := by
  rw [CborDecoder.readBytes.eq_def]
  split
  · exact h.take _
  · exact h.readChunks _ _ _
  · exact h.panic

/-! ## Closing a container -/

lemma expectBreak (frame : Frame) : P _ (expectBreak frame) := by
  rw [CborDecoder.expectBreak]
  split
  · exact h.pure _
  · have hpass := h.passByte (· = 0xff) (g := fun _ => CborDecoder.fail
      (.custom "container ended with unread elements")) (fun _ => h.pure ()) fun _ => h.fail _
    simp only [bind_pure_comp, id_map'] at hpass
    simpa only [ne_eq, ite_not] using hpass

lemma passEnd : P _ passEnd := by
  refine h.get (fun _ _ => rfl) fun s => ?_
  split
  · refine h.bind h.clearLookahead fun _ => ?_
    split <;> first | exact h.pure _ | exact h.fail _
  · split
    · exact h.fail _
    · exact h.expectBreak _

lemma closeFrame {kind : ContainerKind} (hpop : P _ (popFrame kind)) : P _ (closeFrame kind) := by
  refine h.get (fun _ _ => rfl) fun s => ?_
  split
  · exact h.fail _
  · split
    · exact hpop
    · exact h.fail _

lemma skipRound (hpop : ∀ kind, P _ (popFrame kind)) (saved : ℕ) (u : Unit) :
    P _ (skipRound saved u) := by
  refine h.get (fun _ _ => rfl) fun s => ?_
  split
  · split
    · exact h.fail _
    · next frame _ =>
        have hclose : P _ (popFrame frame.kind >>= fun _ => Pure.pure (Sum.inl () : Unit ⊕ Unit)) :=
          h.bind (hpop _) fun _ => h.pure _
        have htake : P _ (CborDecoder.takeToken >>= fun _ => Pure.pure (Sum.inl () : Unit ⊕ Unit)) :=
          h.bind h.takeToken fun _ => h.pure _
        rw [CborDecoder.atEnd, passBreak]
        cases frame.definite with
        | some remaining =>
            simp only [pure_bind]
            exact h.ite hclose htake
        | none =>
            simp only [bind_assoc, pure_bind]
            exact h.passByte (fun byte => (byte == 0xff) = true) (fun _ => hclose) fun _ => htake
  · exact h.pure _

lemma endContainer {kind : ContainerKind} (hpop : P _ (popFrame kind)) :
    P _ (endContainer kind) :=
  h.bind h.passEnd fun _ => h.closeFrame hpop

lemma skipValueInner (hpop : ∀ kind, P _ (popFrame kind)) : P _ skipValueInner :=
  h.get (fun _ _ => rfl) fun _ => h.bind h.takeToken fun _ =>
    h.get (fun _ _ => rfl) fun _ => h.iterate (h.skipRound hpop _) _ _

lemma bytes (narrow : Number → Option UInt8) (hpop : P _ (popFrame .array)) :
    P _ (bytes narrow) := by
  refine h.bind h.peekByte fun byte => ?_
  dsimp only
  split_ifs
  · exact h.bind h.readHead fun _ => h.readBytes _
  · exact h.bind (h.expectToken _ _) fun _ => h.pure _
  · exact h.bind (h.expectToken _ _) fun _ => h.get (fun _ _ => rfl) fun _ =>
      h.bind (h.iterate (h.bytesRound narrow) _ _) fun _ =>
        h.bind (h.endContainer hpop) fun _ => h.pure _
  · exact h.fail _

/-- A property that the primitive steps, `popFrame`, `restore`, `set_expecting` and the
setting of the lookahead have is one that every method has. -/
lemma method (narrow : Number → Option UInt8) (call : CborCall) (hpop : ∀ kind, P _ (popFrame kind))
    (hrestore : ∀ mark, call = .required (.restore mark) → P _ (restore mark))
    (hexpecting : ∀ text, P _ (setExpecting text))
    (hset : ∀ token, P _ (modify fun s => { s with lookahead := some token })) :
    P _ (method narrow call) := by
  cases call with
  | bytes => exact h.map _ (h.bytes narrow (hpop .array))
  | optionTag => exact h.map _ h.optionTag
  | required call =>
      cases call with
      | beginObject => exact h.map _ (h.expectToken _ _)
      | endObject => exact h.map _ (h.endContainer (hpop .object))
      | objectKey => exact h.map _ h.objectKey
      | objectEntrySep => exact h.map _ h.entrySep
      | beginArray => exact h.map _ (h.expectToken _ _)
      | endArray => exact h.map _ (h.endContainer (hpop .array))
      | arrayHasMore => exact h.map _ h.hasMore
      | arrayEntrySep => exact h.map _ h.entrySep
      | unit => exact h.map _ (h.expectToken _ _)
      | bool => exact h.map _ (h.expectToken _ _)
      | number => exact h.map _ (h.expectToken _ _)
      | string => exact h.map _ (h.expectToken _ _)
      | char => exact h.map _ h.char
      | skipValue => exact h.map _ (h.skipValueInner hpop)
      | peekToken => exact h.map _ (h.peekTokenInner hset)
      | nextToken => exact h.map _ h.takeToken
      | save => exact h.map _ (h.get (fun _ _ => rfl) fun _ => h.pure _)
      | restore mark => exact h.map _ (hrestore mark rfl)
      | setExpecting text => exact h.map _ (hexpecting text)
      | isHumanReadable => exact h.pure _

end Guarded

lemma Primitive.passBreak {P : (α : Type) → Dec α → Prop} (h : Primitive P) (frame : Frame) :
    P _ (passBreak frame) := by
  rw [CborDecoder.passBreak]
  split
  · exact h.pure _
  · exact h.bumpCursor

/-! ## Moving the decoder along a preorder -/

section Moves

variable {R : CborDecoder → CborDecoder → Prop}

/-- The steps of the decoder, with no byte passed unseen, move it along a preorder that admits what
each of them can do to it within the limits. -/
lemma guarded_moves (hr : ∀ s, R s s) (ht : ∀ s t u, R s t → R t u → R s u)
    (hfail : ∀ s e, R s (s.failed e))
    (hcursor : ∀ (s : CborDecoder) n, s.Admits (s.cursor + n) → R s { s with cursor := s.cursor + n })
    (hlookahead : ∀ s : CborDecoder, R s { s with lookahead := none })
    (hdec : ∀ (s : CborDecoder) kind next, s.frames.getLast? = some ⟨kind, some (next + 1)⟩ →
      R s { s with frames := s.frames.dropLast ++ [⟨kind, some next⟩] })
    (henter : ∀ (s : CborDecoder) frame, s.depth < maxDepth →
      (∀ count, frame.definite = some count →
        ∀ l, s.config.collectionLimit = some l → count ≤ l) →
      R s { s with frames := s.frames ++ [frame], depth := s.depth + 1 })
    (hcount : ∀ (s : CborDecoder) index count (hi : index < maxDepth), s.depth = index + 1 →
      (∀ l, s.config.collectionLimit = some l → count ≤ l) →
      R s { s with counts := s.counts.set index count hi }) :
    Guarded fun _ m => Moves R m where
  toClosed := closed_moves hr ht
  get := fun _ hf s => hf s s
  fail := fun e s => hfail s e
  take := by
    intro len s
    rcases take_cases s len with ⟨out, -, hlim, h⟩ | ⟨-, e, h⟩
    · rw [h]
      exact hcursor s len hlim
    · rw [h]
      exact hfail s e
  peekByte := by
    intro s
    rcases peekByte_cases s with ⟨byte, -, -, h⟩ | ⟨-, e, h⟩
    · rw [h]
      exact hr s
    · rw [h]
      exact hfail s e
  passByte := by
    intro α c _ f g hf hg s
    rcases peekByte_cases s with ⟨byte, -, hlim, h⟩ | ⟨-, e, h⟩
    · rw [bind_of_ok h]
      split
      · rcases bumpCursor_cases s with ⟨-, hbump⟩ | ⟨-, hbump⟩
        · rw [bind_of_ok hbump]
          exact ht _ _ _ (hcursor s 1 hlim) (hf byte _)
        · rw [bind_of_panic hbump]
          exact hr s
      · exact hg byte s
    · rw [bind_of_err h]
      exact hfail s e
  clearLookahead := hlookahead
  decRemaining := by
    intro s
    rcases decRemaining_cases s with ⟨kind, next, hlast, h⟩ | ⟨-, h⟩ | ⟨-, h⟩
    · rw [h]
      exact hdec s kind next hlast
    · rw [h]
      exact hr s
    · rw [h]
      exact hfail s _
  enterContainer := by
    intro kind definite s
    rcases enterContainer_cases s kind definite with ⟨hd, hle, h⟩ | ⟨e, h⟩
    · rw [h]
      exact henter s ⟨kind, definite⟩ hd hle
    · rw [h]
      exact hfail s e
  countElement := by
    intro s
    rcases countElement_cases s with ⟨index, hi, hd, hle, h⟩ | ⟨e, h⟩ | ⟨-, h⟩
    · rw [h]
      exact hcount s index _ hi hd hle
    · rw [h]
      exact hfail s e
    · rw [h]
      exact hr s

/-- The primitive steps move the decoder along a preorder that admits what each of them can
do to it. -/
lemma primitive_moves (hr : ∀ s, R s s) (ht : ∀ s t u, R s t → R t u → R s u)
    (hfail : ∀ s e, R s (s.failed e))
    (hcursor : ∀ (s : CborDecoder) n, R s { s with cursor := s.cursor + n })
    (hlookahead : ∀ s : CborDecoder, R s { s with lookahead := none })
    (hdec : ∀ (s : CborDecoder) kind next, s.frames.getLast? = some ⟨kind, some (next + 1)⟩ →
      R s { s with frames := s.frames.dropLast ++ [⟨kind, some next⟩] })
    (henter : ∀ (s : CborDecoder) frame, s.depth < maxDepth →
      R s { s with frames := s.frames ++ [frame], depth := s.depth + 1 })
    (hcount : ∀ (s : CborDecoder) index count (hi : index < maxDepth), s.depth = index + 1 →
      R s { s with counts := s.counts.set index count hi }) :
    Primitive fun _ m => Moves R m where
  toGuarded := guarded_moves hr ht hfail (fun s n _ => hcursor s n) hlookahead hdec
    (fun s frame hd _ => henter s frame hd) fun s index count hi hd _ => hcount s index count hi hd
  bumpCursor := by
    intro s
    rcases bumpCursor_cases s with ⟨-, h⟩ | ⟨-, h⟩
    · rw [h]
      exact hcursor s 1
    · rw [h]
      exact hr s

end Moves

end RustBinary.Cbor
