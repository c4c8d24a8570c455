import RustBinary.Cbor.Progress

/-!
# Steps of the CBOR decoder that always return

`Safe m` says that `m`, from a state that keeps the invariant, returns with a value or an
error and keeps the invariant.  Every step is safe that reads no token, and so is what reads
the rest of a token once its head is known to carry a value.
-/

namespace RustBinary.Cbor

open Lib Lib.Act CborDecoder

/-! ## Steps that always return -/

/-- From a state that keeps the invariant, `m` returns and keeps it. -/
def Safe {α : Type} (m : Dec α) : Prop := ∀ s, Inv s → (m s).1.Returned ∧ Inv (m s).2

section Safe

variable {α β : Type}

lemma Safe.of_returned {m : Dec α} (hm : Moves (fun s t => Inv s → Inv t) m)
    (h : ∀ s, Inv s → (m s).1.Returned) : Safe m := fun s hs => ⟨h s hs, hm s hs⟩

lemma safe_pure (a : α) : Safe (pure a) := fun _ hs => ⟨trivial, hs⟩

lemma safe_fail (e : Error) : Safe (fail e : Dec α) :=
  fun _ hs => ⟨trivial, hs.of_eq rfl rfl rfl⟩

lemma safe_invalidType (expected : String) (found : Token) :
    Safe (invalidType expected found : Dec α) := fun _ hs => ⟨trivial, hs⟩

/-- What follows a step that returns only has to be safe from where the step leads. -/
lemma returned_bind {m : Dec α} {f : α → Dec β} {s : CborDecoder} (hm : (m s).1.Returned)
    (hinv : Inv (m s).2)
    (hf : ∀ a t, m s = (.ok a, t) → Inv t → (f a t).1.Returned ∧ Inv (f a t).2) :
    ((m >>= f) s).1.Returned ∧ Inv ((m >>= f) s).2 := by
  have hok : ∀ a t, m s = (.ok a, t) → Inv t := by
    intro a t h
    rwa [h] at hinv
  refine ⟨bind_returned_iff.mpr ⟨hm, fun a t h => (hf a t h (hok a t h)).1⟩, ?_⟩
  exact bind_snd hinv fun a t h => (hf a t h (hok a t h)).2

lemma safe_bind {m : Dec α} {f : α → Dec β} (hm : Safe m) (hf : ∀ a, Safe (f a)) :
    Safe (m >>= f) :=
  fun s hs => returned_bind (hm s hs).1 (hm s hs).2 fun a t _ ht => hf a t ht

lemma safe_take (len : ℕ) : Safe (orFail (take len)) := by
  refine .of_returned (primitive_inv.take len) fun s _ => ?_
  rcases take_cases s len with ⟨out, -, -, h⟩ | ⟨-, e, h⟩ <;> rw [h] <;> trivial

lemma safe_takeExact (len : ℕ) : Safe (takeExact len) := by
  refine .of_returned (primitive_inv.takeExact len) fun s _ => ?_
  rcases takeExact_cases s len with ⟨out, -, -, h⟩ | ⟨-, e, h⟩ <;> rw [h] <;> trivial

lemma safe_peekByte : Safe (orFail peekByte) := by
  refine .of_returned primitive_inv.peekByte fun s _ => ?_
  rcases peekByte_cases s with ⟨byte, -, -, h⟩ | ⟨-, e, h⟩ <;> rw [h] <;> trivial

lemma safe_readHead : Safe readHead := by
  refine .of_returned primitive_inv.readHead fun s _ => ?_
  rcases readHead_cases s with ⟨major, argument, t, h, -⟩ | ⟨t, h⟩ <;> rw [h] <;> trivial

lemma safe_decRemaining : Safe decRemaining := by
  refine .of_returned primitive_inv.decRemaining fun s _ => ?_
  rcases decRemaining_cases s with ⟨kind, next, -, h⟩ | ⟨-, h⟩ | ⟨-, h⟩ <;> rw [h] <;> trivial

lemma safe_enterContainer (kind : ContainerKind) (definite : Option ℕ) :
    Safe (enterContainer kind definite) := by
  refine .of_returned (primitive_inv.enterContainer kind definite) fun s _ => ?_
  rcases enterContainer_cases s kind definite with ⟨-, -, h⟩ | ⟨e, h⟩ <;> rw [h] <;> trivial

lemma safe_countElement : Safe countElement := by
  refine .of_returned primitive_inv.countElement fun s hs => ?_
  rcases countElement_cases s with ⟨index, hi, -, -, h⟩ | ⟨e, h⟩ | ⟨hd, h⟩
  · rw [h]
    trivial
  · rw [h]
    trivial
  · exact absurd hs.depth_le (by omega)

/-- An open container has a depth, so its counter is in the table. -/
lemma safe_popFrame (kind : ContainerKind) : Safe (popFrame kind) := by
  refine .of_returned (inv_popFrame kind) fun s hs => ?_
  rcases popFrame_cases s kind with ⟨d, hd, definite, -, -, h⟩ | ⟨-, e, h⟩ | ⟨⟨frame, hf⟩, hd, h⟩
  · rw [h]
    trivial
  · rw [h]
    trivial
  · have hpos : 0 < s.frames.length := by
      rcases hs' : s.frames with _ | ⟨f, fs⟩
      · simp [hs'] at hf
      · simp
    have := hs.frames_le
    have := hs.depth_le
    omega

/-- After a byte has been seen at the cursor the cursor can move. -/
lemma returned_bumpCursor {s : CborDecoder} (hs : Inv s) {byte : UInt8}
    (h : s.input.bytes[s.cursor]? = some byte) :
    (bumpCursor s).1.Returned ∧ Inv (bumpCursor s).2 := by
  refine ⟨?_, primitive_inv.bumpCursor s hs⟩
  have hlt := (List.getElem?_eq_some_iff.mp h).1
  have := s.input.length_le
  rcases bumpCursor_cases s with ⟨-, h⟩ | ⟨hno, h⟩
  · rw [h]
    trivial
  · omega

lemma safe_atEnd (frame : Frame) : Safe (atEnd frame) := by
  rw [atEnd]
  split
  · exact safe_pure _
  · exact safe_bind safe_peekByte fun _ => safe_pure _

/-- When an indefinite container is at its end the cursor is at the break byte. -/
lemma returned_passBreak {frame : Frame} {s t : CborDecoder} {finished : Bool} (ht : Inv t)
    (h : atEnd frame s = (.ok finished, t)) :
    (passBreak frame t).1.Returned ∧ Inv (passBreak frame t).2 := by
  rcases frame with ⟨kind, _ | remaining⟩
  · obtain ⟨byte, u, hpeek, hpure⟩ := bind_eq_ok.mp h
    rcases peekByte_cases s with ⟨byte', hbyte, -, heq⟩ | ⟨-, e, heq⟩
    · rw [heq] at hpeek
      cases hpeek
      cases hpure
      exact returned_bumpCursor ht hbyte
    · rw [heq] at hpeek
      cases hpeek
  · exact ⟨trivial, ht⟩

/-! ## Texts, bignums and simple values -/

lemma safe_takeChunk (major : ℕ) (wrongChunk invalidLength : String) (head : ℕ × HeadArg) :
    Safe (takeChunk major wrongChunk invalidLength head) := by
  rw [CborDecoder.takeChunk.eq_def]
  split
  · exact safe_fail _
  · split
    · exact safe_take _
    · exact safe_fail _

lemma safe_chunkRound (major : ℕ) (wrongChunk invalidLength : String) (out : List UInt8) :
    Safe (chunkRound major wrongChunk invalidLength out) := by
  intro s hs
  refine returned_bind (safe_peekByte s hs).1 (safe_peekByte s hs).2 fun byte t h ht => ?_
  by_cases hbreak : byte = 0xff
  · rw [if_pos hbreak]
    rcases peekByte_cases s with ⟨byte', hbyte, -, heq⟩ | ⟨-, e, heq⟩
    · rw [heq] at h
      cases h
      have hbump := returned_bumpCursor ht hbyte
      exact returned_bind hbump.1 hbump.2 fun _ u _ hu => ⟨trivial, hu⟩
    · rw [heq] at h
      cases h
  · rw [if_neg hbreak]
    exact safe_bind safe_readHead
      (fun _ => safe_bind (safe_takeChunk _ _ _ _) fun _ => safe_pure _) t ht

lemma safe_readChunks (major : ℕ) (wrongChunk invalidLength : String) :
    Safe (readChunks major wrongChunk invalidLength) := by
  refine .of_returned (primitive_inv.readChunks _ _ _) fun s hs => ?_
  rw [readChunks, get_bind_run]
  refine (iterate_returned_iff (fun _ t => t.rest) ?_ ?_).mpr fun out t hv => ?_
  · exact fun out t out' t' _ h => chunkRound_rest_lt h
  · exact Nat.lt_succ_of_le (Nat.sub_le _ _)
  · have ht : Inv t := hv.induct (P := fun _ t => Inv t)
      (fun out s out' s' hs h => by
        have := (safe_chunkRound major wrongChunk invalidLength out s hs).2
        rwa [h] at this) hs
    exact (safe_chunkRound major wrongChunk invalidLength out t ht).1

lemma safe_readText (argument : HeadArg) : Safe (readText argument) := by
  rw [CborDecoder.readText.eq_def]
  split
  · refine safe_bind (safe_take _) fun bytes => ?_
    split
    · exact safe_pure _
    · exact safe_fail _
  · refine safe_bind (safe_readChunks _ _ _) fun bytes => ?_
    split
    · exact safe_pure _
    · exact safe_fail _
  · exact safe_fail _

lemma safe_minusOneSub {bits : ℕ} {value : ℤ} (h : -2 ^ (bits - 1) ≤ -1 - value)
    (h' : -1 - value < 2 ^ (bits - 1)) : Safe (minusOneSub bits value) := by
  rw [minusOneSub, if_pos ⟨h, h'⟩]
  exact safe_pure _

/-- The magnitude of a bignum is a value of 128 bits, and so is one less than its negative. -/
lemma safe_negativeBignum {bytes : List UInt8} (h : bytes.length ≤ 16) :
    Safe (minusOneSub 128 (asI128 (beNat (List.replicate (16 - bytes.length) 0 ++ bytes)))) := by
  have hlt := beNat_lt (List.replicate (16 - bytes.length) 0 ++ bytes)
  rw [List.length_append, List.length_replicate, Nat.sub_add_cancel h] at hlt
  have hpow : (256 : ℕ) ^ 16 = 2 ^ 128 := by decide
  rw [hpow] at hlt
  generalize beNat (List.replicate (16 - bytes.length) 0 ++ bytes) = value at hlt
  refine safe_minusOneSub ?_ ?_
  · rw [asI128]
    split <;> omega
  · rw [asI128]
    split <;> omega

lemma safe_readBignum (negative : Bool) : Safe (readBignum negative) := by
  refine safe_bind safe_readHead fun ⟨major, argument⟩ => ?_
  dsimp only
  split
  · exact safe_fail _
  · split
    · refine safe_bind (safe_take _) fun bytes => ?_
      by_cases hlen : 16 < bytes.length
      · rw [if_pos hlen]
        exact safe_fail _
      · rw [if_neg hlen]
        cases negative with
        | true => exact safe_bind (safe_negativeBignum (by omega)) fun _ => safe_pure _
        | false => exact safe_pure _
    · exact safe_fail _
    · exact safe_fail _

lemma safe_containerLength (argument : HeadArg) (invalid : String) :
    Safe (containerLength argument invalid) := by
  rw [CborDecoder.containerLength.eq_def]
  split <;> first | exact safe_pure _ | exact safe_fail _

lemma safe_readFloat (len : ℕ) (toNumber : List UInt8 → Number) :
    Safe (do
      decRemaining
      let bytes ← takeExact len
      pure (Token.number (toNumber bytes))) :=
  safe_bind safe_decRemaining fun _ => safe_bind (safe_takeExact len) fun _ => safe_pure _

lemma safe_readSimple (argument : HeadArg) : Safe (readSimple argument) := by
  rw [CborDecoder.readSimple.eq_def]
  split
  · exact safe_bind safe_decRemaining fun _ => safe_pure _
  · exact safe_bind safe_decRemaining fun _ => safe_pure _
  · exact safe_bind safe_decRemaining fun _ => safe_pure _
  · exact safe_fail _
  · exact safe_bind (safe_take 1) fun _ => safe_fail _
  · exact safe_readFloat 2 fun bytes => .f64 (halfToF64 (beNat bytes))
  · exact safe_readFloat 4 fun bytes => .f64 (f32ToF64 (beNat bytes))
  · exact safe_readFloat 8 fun bytes => .f64 (beNat bytes)
  · exact safe_fail _
  · intro s hs
    rw [get_bind_run]
    rcases s.frames.getLast? with _ | ⟨kind, definite⟩
    · exact safe_fail _ s hs
    · cases kind <;> exact ⟨trivial, hs⟩

/-! ## Tokens -/

/-- The byte at the cursor is the head of an indefinite integer or of an indefinite tag. -/
def BadHead (s : CborDecoder) : Prop :=
  ∃ byte : UInt8, s.input.bytes[s.cursor]? = some byte ∧ s.Admits (s.cursor + 1) ∧
    (byte = 0xdf ∨ (byte = 0x1f ∨ byte = 0x3f) ∧ HasRoom s)

/-- What follows a head returns, unless it asks an argument that is not a value for its
value. -/
lemma safe_tokenOf {major : ℕ} {argument : HeadArg} (hmajor : major < 8)
    (h : major = 0 ∨ major = 1 ∨ major = 6 → ∃ v, argument = .value v ∧ v < 2 ^ 64) :
    Safe (tokenOf major argument) := by
  rw [CborDecoder.tokenOf.eq_def]
  split
  · obtain ⟨v, rfl, -⟩ := h (.inl rfl)
    exact safe_bind safe_decRemaining fun _ => safe_bind (safe_pure v) fun _ => safe_pure _
  · obtain ⟨v, rfl, hv⟩ := h (.inr (.inl rfl))
    refine safe_bind safe_decRemaining fun _ => ?_
    rw [HeadArg.getValue, pure_bind]
    by_cases hle : v ≤ 2 ^ 63 - 1
    · rw [if_pos hle]
      exact safe_bind (safe_minusOneSub (by omega) (by omega)) fun _ => safe_pure _
    · rw [if_neg hle]
      exact safe_bind (safe_minusOneSub (by omega) (by omega)) fun _ => safe_pure _
  · exact safe_fail _
  · exact safe_bind (safe_readText _) fun _ => safe_bind safe_decRemaining fun _ => safe_pure _
  · exact safe_bind safe_decRemaining fun _ => safe_bind (safe_containerLength _ _) fun _ =>
      safe_bind (safe_enterContainer _ _) fun _ => safe_pure _
  · exact safe_bind safe_decRemaining fun _ => safe_bind (safe_containerLength _ _) fun _ =>
      safe_bind (safe_enterContainer _ _) fun _ => safe_pure _
  · obtain ⟨v, rfl, -⟩ := h (.inr (.inr rfl))
    refine safe_bind (safe_pure v) fun tag => ?_
    split
    · exact safe_bind (safe_readBignum _) fun _ => safe_bind safe_decRemaining fun _ => safe_pure _
    · split
      · exact safe_bind (safe_readBignum _) fun _ =>
          safe_bind safe_decRemaining fun _ => safe_pure _
      · exact safe_pure _
  · exact safe_bind (safe_readSimple _) fun _ => safe_pure _
  · simp only [imp_false] at *
    omega

end Safe

/-! ## Methods that read no token -/

lemma readText_str {argument : HeadArg} {s t : CborDecoder} {token : Token}
    (h : readText argument s = (.ok token, t)) : ∃ text, token = .str text := by
  cases argument with
  | value len =>
      obtain ⟨bytes, u, -, hu⟩ := bind_eq_ok.mp h
      rcases hdecoded : fromUtf8 bytes with _ | text <;> rw [hdecoded] at hu <;> cases hu
      exact ⟨text, rfl⟩
  | indefinite =>
      obtain ⟨bytes, u, -, hu⟩ := bind_eq_ok.mp h
      rcases hdecoded : fromUtf8 bytes with _ | text <;> rw [hdecoded] at hu <;> cases hu
      exact ⟨text, rfl⟩
  | float16 => cases h
  | float32 => cases h
  | float64 => cases h

lemma safe_objectKey : Safe objectKey := by
  refine .of_returned primitive_inv.objectKey fun s hs => ?_
  rw [objectKey, get_bind_run]
  rcases s.lookahead with _ | token
  · rcases s.frames.getLast? with _ | frame
    · trivial
    · dsimp only
      by_cases hkind : frame.kind ≠ .object
      · rw [if_pos hkind]
        trivial
      · rw [if_neg hkind]
        have hend := safe_atEnd frame s hs
        refine (returned_bind hend.1 hend.2 fun finished t _ ht => ?_).1
        cases finished with
        | true => exact ⟨trivial, ht⟩
        | false =>
            have hhead := safe_readHead t ht
            refine returned_bind hhead.1 hhead.2 fun head u _ hu => ?_
            by_cases hmajor : head.1 ≠ 3
            · simp only [if_pos hmajor]
              exact ⟨trivial, hu⟩
            · simp only [if_neg hmajor]
              have htext := safe_readText head.2 u hu
              refine returned_bind htext.1 htext.2 fun token v hv hv' => ?_
              obtain ⟨text, rfl⟩ := readText_str hv
              exact ⟨trivial, hv'⟩
  · rcases token with _ | _ | _ | _ | _ | _ | _ | _ <;> trivial

lemma safe_hasMore : Safe hasMore := by
  refine .of_returned primitive_inv.hasMore fun s hs => ?_
  rw [hasMore, get_bind_run]
  cases s.lookahead.isSome with
  | true => trivial
  | false =>
      rcases s.frames.getLast? with _ | frame
      · trivial
      · exact (safe_bind (safe_atEnd frame) (fun _ => safe_pure _) s hs).1

lemma safe_entrySep : Safe entrySep := safe_bind safe_countElement fun _ => safe_hasMore

lemma safe_optionTag : Safe optionTag := by
  refine .of_returned primitive_inv.optionTag fun s hs => ?_
  have hnull : (atNull s).1.Returned ∧
      ∀ t, atNull s = (.ok true, t) → t = s ∧ ∃ byte, s.input.bytes[s.cursor]? = some byte := by
    rw [atNull, get_bind_run]
    rcases s.lookahead with _ | token
    · rcases peekByte_cases s with ⟨byte, hbyte, -, h⟩ | ⟨-, e, h⟩
      · dsimp only
        rw [bind_of_ok h]
        refine ⟨trivial, fun t ht => ?_⟩
        simp only [pure_run, Prod.mk.injEq] at ht
        exact ⟨ht.2.symm, byte, hbyte⟩
      · dsimp only
        rw [bind_of_err h]
        exact ⟨trivial, fun t ht => by cases ht⟩
    · exact ⟨trivial, fun t ht => by cases ht⟩
  rw [optionTag]
  refine bind_returned_iff.mpr ⟨hnull.1, fun null t ht => ?_⟩
  cases null with
  | true =>
      obtain ⟨rfl, byte, hbyte⟩ := hnull.2 t ht
      have hbump := returned_bumpCursor hs hbyte
      exact (returned_bind hbump.1 hbump.2 fun _ u _ hu => safe_pure OptionTag.none u hu).1
  | false =>
      simp only [Bool.false_eq_true, if_false, get_bind_run]
      split <;> trivial

lemma safe_passEnd : Safe passEnd := by
  refine .of_returned primitive_inv.passEnd fun s hs => ?_
  rw [passEnd, get_bind_run]
  rcases s.lookahead with _ | token
  · rcases s.frames.getLast? with _ | ⟨kind, _ | remaining⟩
    · trivial
    · change ((orFail peekByte >>= _) s).1.Returned
      rcases peekByte_cases s with ⟨byte, hbyte, -, h⟩ | ⟨-, e, h⟩
      · rw [bind_of_ok h]
        split
        · trivial
        · exact (returned_bumpCursor hs hbyte).1
      · rw [bind_of_err h]
        trivial
    · trivial
  · rcases token with _ | _ | _ | _ | _ | _ | _ | _ <;> trivial

lemma safe_endContainer (kind : ContainerKind) : Safe (endContainer kind) := by
  refine safe_bind safe_passEnd fun _ s hs => ?_
  rw [closeFrame, get_bind_run]
  rcases s.frames.getLast? with _ | frame
  · exact safe_fail _ s hs
  · dsimp only
    by_cases hempty : frame.definite = none ∨ frame.definite = some 0
    · rw [if_pos hempty]
      exact safe_popFrame kind s hs
    · rw [if_neg hempty]
      exact safe_fail _ s hs

end RustBinary.Cbor
