import RustBinary.Cbor.Decoder

/-!
# What the primitive steps of the CBOR decoder do

One lemma for each primitive step lists what a run of it can come back with and the decoder
it leaves behind.  Failures only record the wire error.
-/

namespace RustBinary.Cbor

open Lib Lib.Act

/-- The error that `fail` hands to the caller. -/
def wireFailure : NextjsonError := .custom "rustbinary cbor wire error"

namespace CborDecoder

/-- The decoder with its wire error recorded. -/
def failed (s : CborDecoder) (e : Error) : CborDecoder := { s with wireError := some e }

/-- The size limit admits reading up to `stop`. -/
def Admits (s : CborDecoder) (stop : ℕ) : Prop := ∀ l, s.config.limit = some l → stop ≤ l

variable (s : CborDecoder)

@[simp] lemma fail_run {α : Type} (e : Error) :
    (fail e : Dec α) s = (.err wireFailure, s.failed e) := rfl

@[simp] lemma fail_bind_run {α β : Type} (e : Error) (f : α → Dec β) :
    (fail e >>= f) s = (.err wireFailure, s.failed e) := rfl

@[simp] lemma orFail_pure {α : Type} (a : α) : orFail (pure a) = pure a := rfl

@[simp] lemma orFail_throw {α : Type} (e : Error) : (orFail (throw e) : Dec α) = fail e := rfl

/-! ## Bytes -/

/-- `take(len)` reads the next `len` bytes, or fails where they are missing or above the size
limit. -/
lemma take_cases (len : ℕ) :
    (∃ out, slice s.input.bytes s.cursor (s.cursor + len) = some out ∧
      s.Admits (s.cursor + len) ∧
      orFail (take len) s = (.ok out, { s with cursor := s.cursor + len })) ∨
    ((slice s.input.bytes s.cursor (s.cursor + len) = none ∨ ¬ s.Admits (s.cursor + len)) ∧
      ∃ e, orFail (take len) s = (.err wireFailure, s.failed e)) := by
  have htake : take len s = (okOr (checkedAdd s.cursor len) .unexpectedEnd >>= fun stop =>
      atMost s.config.limit stop Error.sizeLimit >>= fun _ =>
      okOr (slice s.input.bytes s.cursor stop) .unexpectedEnd >>= fun bytes =>
      Act.modify (fun s : CborDecoder => { s with cursor := stop }) >>= fun _ =>
      pure bytes) s := rfl
  by_cases hstop : s.cursor + len ≤ u64Max
  · rw [checkedAdd, if_pos hstop, okOr_some, pure_bind] at htake
    rcases atMost_cases (σ := CborDecoder) s.config.limit (s.cursor + len) Error.sizeLimit
      with ⟨hlim, hat⟩ | ⟨l, hl, hlt, hat⟩
    · rw [hat, pure_bind] at htake
      cases hsl : slice s.input.bytes s.cursor (s.cursor + len) with
      | none =>
          rw [hsl] at htake
          exact .inr ⟨.inl rfl, _, onErr_of_err htake⟩
      | some out =>
          rw [hsl] at htake
          exact .inl ⟨out, rfl, hlim, onErr_of_ok htake⟩
    · rw [hat] at htake
      refine .inr ⟨.inr fun h => ?_, _, onErr_of_err htake⟩
      exact absurd (h l hl) (Nat.not_le.mpr hlt)
  · rw [checkedAdd, if_neg hstop] at htake
    refine .inr ⟨.inl ?_, _, onErr_of_err htake⟩
    cases hsl : slice s.input.bytes s.cursor (s.cursor + len) with
    | none => rfl
    | some out =>
        have := (slice_eq_some.mp hsl).2.1
        have := s.input.length_le
        omega

lemma take_of_slice {len : ℕ} {out : List UInt8}
    (h : slice s.input.bytes s.cursor (s.cursor + len) = some out)
    (hlim : s.Admits (s.cursor + len)) :
    orFail (take len) s = (.ok out, { s with cursor := s.cursor + len }) := by
  rcases take_cases s len with ⟨out', h', _, heq⟩ | ⟨hno | hno, _⟩
  · rw [h] at h'
    cases h'
    exact heq
  · rw [h] at hno
    cases hno
  · exact absurd hlim hno

/-- `peek_byte` leaves the decoder alone. -/
lemma peekByte_cases :
    (∃ byte, s.input.bytes[s.cursor]? = some byte ∧ s.Admits (s.cursor + 1) ∧
      orFail peekByte s = (.ok byte, s)) ∨
    ((s.input.bytes[s.cursor]? = none ∨ ¬ s.Admits (s.cursor + 1)) ∧
      ∃ e, orFail peekByte s = (.err wireFailure, s.failed e)) := by
  have hpeek : peekByte s = (okOr s.input.bytes[s.cursor]? .unexpectedEnd >>= fun byte =>
      atMost s.config.limit (min (s.cursor + 1) u64Max) Error.sizeLimit >>= fun _ =>
      pure byte) s := rfl
  cases hb : s.input.bytes[s.cursor]? with
  | none =>
      rw [hb] at hpeek
      exact .inr ⟨.inl rfl, _, onErr_of_err hpeek⟩
  | some byte =>
      have hlt : s.cursor < s.input.bytes.length := (List.getElem?_eq_some_iff.mp hb).1
      have hmin : min (s.cursor + 1) u64Max = s.cursor + 1 := by
        have := s.input.length_le
        omega
      rw [hb, okOr_some, pure_bind, hmin] at hpeek
      rcases atMost_cases (σ := CborDecoder) s.config.limit (s.cursor + 1) Error.sizeLimit
        with ⟨hlim, hat⟩ | ⟨l, hl, hlt, hat⟩
      · rw [hat] at hpeek
        exact .inl ⟨byte, rfl, hlim, onErr_of_ok hpeek⟩
      · rw [hat] at hpeek
        refine .inr ⟨.inr fun h => ?_, _, onErr_of_err hpeek⟩
        exact absurd (h l hl) (Nat.not_le.mpr hlt)

lemma peekByte_of_getElem {byte : UInt8} (h : s.input.bytes[s.cursor]? = some byte)
    (hlim : s.Admits (s.cursor + 1)) : orFail peekByte s = (.ok byte, s) := by
  rcases peekByte_cases s with ⟨byte', h', _, heq⟩ | ⟨hno | hno, _⟩
  · rw [h] at h'
    cases h'
    exact heq
  · rw [h] at hno
    cases hno
  · exact absurd hlim hno

lemma bumpCursor_cases :
    (s.cursor + 1 ≤ u64Max ∧ bumpCursor s = (.ok (), { s with cursor := s.cursor + 1 })) ∨
    (u64Max < s.cursor + 1 ∧ bumpCursor s = (.panic, s)) := by
  have h : bumpCursor s = (if s.cursor + 1 ≤ u64Max then
      Act.modify (fun s : CborDecoder => { s with cursor := s.cursor + 1 }) else panic) s := rfl
  by_cases hle : s.cursor + 1 ≤ u64Max
  · exact .inl ⟨hle, by rw [h, if_pos hle]; rfl⟩
  · exact .inr ⟨by omega, by rw [h, if_neg hle]; rfl⟩

/-! ## The pending token -/

lemma takeToken_none (h : s.lookahead = none) : takeToken s = readToken s := by
  rw [takeToken, get_bind_run, h]

lemma takeToken_some {token : Token} (h : s.lookahead = some token) :
    takeToken s = (.ok token, { s with lookahead := none }) := by
  rw [takeToken, get_bind_run, h]
  rfl

/-! ## Containers -/

/-- `dec_remaining` charges one element to the open container if that is a definite one. -/
lemma decRemaining_cases :
    (∃ kind next, s.frames.getLast? = some ⟨kind, some (next + 1)⟩ ∧
      decRemaining s =
        (.ok (), { s with frames := s.frames.dropLast ++ [⟨kind, some next⟩] })) ∨
    ((∀ frame, s.frames.getLast? = some frame → frame.definite = none) ∧
      decRemaining s = (.ok (), s)) ∨
    ((∃ kind, s.frames.getLast? = some ⟨kind, some 0⟩) ∧
      decRemaining s = (.err wireFailure, s.failed (.custom "too many container elements"))) := by
  rw [decRemaining, get_bind_run]
  rcases s.frames.getLast? with _ | ⟨kind, _ | _ | next⟩
  · exact .inr (.inl ⟨fun _ h' => (by cases h'), rfl⟩)
  · exact .inr (.inl ⟨fun _ h' => (by cases h'; rfl), rfl⟩)
  · exact .inr (.inr ⟨⟨kind, rfl⟩, rfl⟩)
  · exact .inl ⟨kind, next, rfl, rfl⟩

/-- The open container, if it is a definite one, has an element left. -/
def HasRoom (s : CborDecoder) : Prop := ∀ kind, s.frames.getLast? ≠ some ⟨kind, some 0⟩

/-- `enter_container` opens a container, or fails at the depth or the collection limit. -/
lemma enterContainer_cases (kind : ContainerKind) (definite : Option ℕ) :
    (s.depth < maxDepth ∧
      (∀ count, definite = some count → ∀ l, s.config.collectionLimit = some l → count ≤ l) ∧
      enterContainer kind definite s =
        (.ok (), { s with frames := s.frames ++ [⟨kind, definite⟩], depth := s.depth + 1 })) ∨
    ∃ e, enterContainer kind definite s = (.err wireFailure, s.failed e) := by
  have h : enterContainer kind definite s =
      (if maxDepth ≤ s.depth then fail (.custom "decoder nesting depth limit exceeded")
        else limitDefinite definite >>= fun _ => Act.modify fun s : CborDecoder =>
          { s with frames := s.frames ++ [Frame.mk kind definite], depth := s.depth + 1 }) s := rfl
  rw [h]
  by_cases hd : maxDepth ≤ s.depth
  · rw [if_pos hd]
    exact .inr ⟨_, rfl⟩
  · rw [if_neg hd]
    cases definite with
    | none => exact .inl ⟨by omega, fun _ h => (by cases h), rfl⟩
    | some count =>
        have hlim : limitDefinite (some count) s =
            orFail (atMost s.config.collectionLimit count Error.collectionLimit) s := rfl
        rcases atMost_cases (σ := CborDecoder) s.config.collectionLimit count
          Error.collectionLimit with ⟨hle, hat⟩ | ⟨l, _, _, hat⟩
        · rw [hat] at hlim
          exact .inl ⟨by omega, fun _ h => (by cases h; exact hle), by rw [bind_of_ok hlim]; rfl⟩
        · rw [hat] at hlim
          exact .inr ⟨_, bind_of_err hlim⟩

lemma enterContainer_of_lt {kind : ContainerKind} {definite : Option ℕ}
    (hd : s.depth < maxDepth)
    (hlim : ∀ count, definite = some count → ∀ l, s.config.collectionLimit = some l → count ≤ l) :
    enterContainer kind definite s =
      (.ok (), { s with frames := s.frames ++ [⟨kind, definite⟩], depth := s.depth + 1 }) := by
  have h : enterContainer kind definite s =
      (if maxDepth ≤ s.depth then fail (.custom "decoder nesting depth limit exceeded")
        else limitDefinite definite >>= fun _ => Act.modify fun s : CborDecoder =>
          { s with frames := s.frames ++ [Frame.mk kind definite], depth := s.depth + 1 }) s := rfl
  rw [h, if_neg (by omega)]
  cases definite with
  | none => rfl
  | some count =>
      have hcount : limitDefinite (some count) s = (.ok (), s) := by
        change orFail (atMost s.config.collectionLimit count Error.collectionLimit) s = _
        rw [atMost_of_le (hlim count rfl)]
        rfl
      rw [bind_of_ok hcount]
      rfl

/-- `pop_frame` closes the open container and clears its counter. -/
lemma popFrame_cases (kind : ContainerKind) :
    (∃ (d : ℕ) (hd : d < maxDepth) (definite : Option ℕ), s.depth = d + 1 ∧
      s.frames.getLast? = some ⟨kind, definite⟩ ∧
      popFrame kind s =
        (.ok (), { s with
          frames := s.frames.dropLast, depth := d, counts := s.counts.set d 0 hd })) ∨
    ((∀ definite, s.frames.getLast? ≠ some ⟨kind, definite⟩) ∧
      ∃ e, popFrame kind s = (.err wireFailure, s.failed e)) ∨
    ((∃ frame, s.frames.getLast? = some frame) ∧ (s.depth = 0 ∨ maxDepth < s.depth) ∧
      popFrame kind s = (.panic, s)) := by
  rw [popFrame, get_bind_run]
  rcases s.frames.getLast? with _ | ⟨kind', definite⟩
  · exact .inr (.inl ⟨fun _ h' => (by cases h'), _, rfl⟩)
  · by_cases hk : kind' = kind
    · subst hk
      dsimp only
      rw [if_neg (by simp)]
      rcases s.depth with _ | d
      · exact .inr (.inr ⟨⟨_, rfl⟩, .inl rfl, rfl⟩)
      · dsimp only
        by_cases hlt : d < maxDepth
        · rw [dif_pos hlt]
          exact .inl ⟨d, hlt, definite, rfl, rfl, rfl⟩
        · rw [dif_neg hlt]
          exact .inr (.inr ⟨⟨_, rfl⟩, .inr (by omega), rfl⟩)
    · dsimp only
      rw [if_pos hk]
      refine .inr (.inl ⟨fun _ h' => ?_, _, rfl⟩)
      cases h'
      exact hk rfl

/-- `count_element` counts one separator in the open container. -/
lemma countElement_cases :
    (∃ (index : ℕ) (hi : index < maxDepth), s.depth = index + 1 ∧
      (∀ l, s.config.collectionLimit = some l → s.counts[index] + 1 ≤ l) ∧
      countElement s =
        (.ok (), { s with counts := s.counts.set index (s.counts[index] + 1) hi })) ∨
    (∃ e, countElement s = (.err wireFailure, s.failed e)) ∨
    (maxDepth < s.depth ∧ countElement s = (.panic, s)) := by
  rw [countElement, get_bind_run]
  rcases hd : s.depth with _ | index
  · exact .inr (.inl ⟨_, rfl⟩)
  · dsimp only
    by_cases hi : index < maxDepth
    · rw [dif_pos hi]
      rcases hc : checkedAdd s.counts[index] 1 with _ | count
      · exact .inr (.inl ⟨_, rfl⟩)
      · have hcount : count = s.counts[index] + 1 := by
          rw [checkedAdd] at hc
          split at hc
          · cases hc
            rfl
          · cases hc
        rw [okOr_some, orFail_pure, pure_bind]
        rcases atMost_cases (σ := CborDecoder) s.config.collectionLimit count
          Error.collectionLimit with ⟨hle, hat⟩ | ⟨l, hl, hlt, hat⟩
        · rw [hat]
          subst hcount
          exact .inl ⟨index, hi, rfl, hle, by rw [← hd]; rfl⟩
        · rw [hat]
          exact .inr (.inl ⟨_, rfl⟩)
    · rw [dif_neg hi]
      exact .inr (.inr ⟨by omega, rfl⟩)

lemma countElement_of_le {index : ℕ} (hi : index < maxDepth) (hd : s.depth = index + 1)
    (hmax : s.counts[index] + 1 ≤ u64Max)
    (hlim : ∀ l, s.config.collectionLimit = some l → s.counts[index] + 1 ≤ l) :
    countElement s =
      (.ok (), { s with counts := s.counts.set index (s.counts[index] + 1) hi }) := by
  rw [countElement, get_bind_run]
  simp only [hd]
  rw [dif_pos hi, checkedAdd, if_pos hmax, okOr_some, orFail_pure, pure_bind, atMost_of_le hlim, ← hd]
  rfl

end CborDecoder

end RustBinary.Cbor
