import RustBinary.Cbor.Safe

/-!
# Where the CBOR decoder panics

From a state that keeps the invariant every step of the decoder returns, with a value or an
error, with one exception: `HeadArg::value` is an `unreachable!` for the argument of an
indefinite head, and the loop of `read_token` calls it for the major types 0, 1 and 6
without having excluded that argument.  So a call panics if and only if it reads a token
whose head is one of the bytes `0x1f` and `0x3f`, with an element left in the open
container, or the byte `0xdf` (`BadHead`, `step_returned_iff`).

The loops end: their rounds take input (`Progress`), or close a container.
-/

namespace RustBinary.Cbor

open Lib Lib.Act CborDecoder

/-! ## Tokens -/

lemma HeadRead.inv {s t : CborDecoder} {major : ℕ} {argument : HeadArg}
    (h : HeadRead s major argument t) (hs : Inv s) : Inv t := by
  obtain ⟨n, -, rfl⟩ := h.moved
  exact hs.of_eq rfl rfl rfl

/-- An indefinite integer returns only where its element is not there to be charged. -/
lemma indefinite_returned_iff {α : Type} (k : ℕ → Dec α) (s : CborDecoder) :
    ((decRemaining >>= fun _ => HeadArg.indefinite.getValue >>= k) s).1.Returned ↔
      ¬ HasRoom s := by
  rcases decRemaining_cases s with ⟨kind, next, hlast, h⟩ | ⟨hlast, h⟩ | ⟨⟨kind, hlast⟩, h⟩
  · have hroom : HasRoom s := by
      intro kind' h'
      rw [hlast] at h'
      cases h'
    rw [bind_of_ok h]
    exact ⟨fun hp => absurd hp id, fun hno => absurd hroom hno⟩
  · have hroom : HasRoom s := by
      intro kind' h'
      cases hlast _ h'
    rw [bind_of_ok h]
    exact ⟨fun hp => absurd hp id, fun hno => absurd hroom hno⟩
  · rw [bind_of_err h]
    exact ⟨fun _ hroom => hroom kind hlast, fun _ => trivial⟩

/-- A round of the loop of `read_token` panics exactly at a bad head. -/
lemma tokenRound_returned_iff {s : CborDecoder} (hs : Inv s) (u : Unit) :
    (tokenRound u s).1.Returned ↔ ¬ BadHead s := by
  rcases readHead_cases s with ⟨major, argument, t, hread, hhead⟩ | ⟨t, hread⟩
  · obtain ⟨byte, hbyte, hlim, hmajor, hai⟩ := hhead.byte
    obtain ⟨n, hn, ht⟩ := hhead.moved
    have hround : tokenRound u s = tokenOf major argument t := bind_of_ok hread
    have hlt : byte.toNat < 256 := byte.toNat_lt
    have hbad : BadHead s ↔ byte = 0xdf ∨ (byte = 0x1f ∨ byte = 0x3f) ∧ HasRoom s := by
      constructor
      · rintro ⟨byte', hbyte', -, h⟩
        rw [hbyte] at hbyte'
        cases hbyte'
        exact h
      · exact fun h => ⟨byte, hbyte, hlim, h⟩
    have hroom : HasRoom t ↔ HasRoom s := by
      subst ht
      rfl
    have hsafe : (major = 0 ∨ major = 1 ∨ major = 6 → ∃ v, argument = .value v ∧ v < 2 ^ 64) →
        (tokenOf major argument t).1.Returned :=
      fun h => (safe_tokenOf (by omega) h t (hhead.inv hs)).1
    rw [hround, hbad]
    by_cases harg : argument = .indefinite
    · subst harg
      have h31 : byte.toNat % 2 ^ 5 = 31 := hai.mp rfl
      have hbyte_eq : ∀ b : UInt8, b.toNat = 32 * major + 31 → byte = b :=
        fun b hb => UInt8.toNat_inj.mp (by omega)
      have hbyte_ne : ∀ b : UInt8, b.toNat ≠ 32 * major + 31 → byte ≠ b := by
        rintro b hb rfl
        omega
      by_cases h0 : major = 0
      · subst h0
        have hb : byte = 0x1f := hbyte_eq _ rfl
        rw [← hroom, hb]
        exact (indefinite_returned_iff _ t).trans (by simp)
      by_cases h1 : major = 1
      · subst h1
        have hb : byte = 0x3f := hbyte_eq _ rfl
        rw [← hroom, hb]
        exact (indefinite_returned_iff _ t).trans (by simp)
      by_cases h6 : major = 6
      · subst h6
        have hb : byte = 0xdf := hbyte_eq _ rfl
        rw [hb]
        exact ⟨fun hp => absurd hp id, fun hno => absurd (.inl rfl) hno⟩
      · have hno : ¬ (byte = 0xdf ∨ (byte = 0x1f ∨ byte = 0x3f) ∧ HasRoom s) := by
          rintro (hb | ⟨hb | hb, -⟩)
          · exact hbyte_ne 0xdf (by simp; omega) hb
          · exact hbyte_ne 0x1f (by simp; omega) hb
          · exact hbyte_ne 0x3f (by simp; omega) hb
        exact ⟨fun _ => hno, fun _ => hsafe (by omega)⟩
    · have hno : ¬ (byte = 0xdf ∨ (byte = 0x1f ∨ byte = 0x3f) ∧ HasRoom s) := by
        rintro (rfl | ⟨rfl | rfl, -⟩) <;> exact harg (hai.mpr rfl)
      exact ⟨fun _ => hno, fun _ => hsafe fun hm => hhead.value (by omega) harg⟩
  · refine ⟨?_, fun _ => ?_⟩
    · rintro - ⟨byte, hbyte, hlim, hb⟩
      have hai : byte.toNat % 2 ^ 5 = 31 := by
        rcases hb with rfl | ⟨rfl | rfl, -⟩ <;> rfl
      rw [readHead_indefinite s hbyte hlim hai] at hread
      cases hread
    · rw [tokenRound, bind_of_err hread]
      trivial

/-- `read_token` from `s` starts a round in `t`: heads that annotate a value come before. -/
def Reads (s t : CborDecoder) : Prop := s.lookahead = none ∧ Visits tokenRound () s () t

lemma Reads.inv {s t : CborDecoder} (h : Reads s t) (hs : Inv s) : Inv t :=
  h.2.induct (P := fun _ t => Inv t)
    (fun u s u' s' hs h => by
      have := primitive_inv.tokenRound u s hs
      rwa [h] at this) hs

lemma readToken_returned_iff {s : CborDecoder} (hs : Inv s) (hl : s.lookahead = none) :
    (readToken s).1.Returned ↔ ∀ t, Reads s t → ¬ BadHead t := by
  rw [readToken, get_bind_run,
    iterate_returned_iff (fun _ t => t.rest) (fun u t u' t' _ h => advances_tokenRound u t _ t' h)
      (Nat.lt_succ_of_le (Nat.sub_le _ _))]
  constructor
  · rintro h t ht
    exact (tokenRound_returned_iff (ht.inv hs) ()).mp (h () t ht.2)
  · intro h u t hv
    have ht : Reads s t := ⟨hl, hv⟩
    exact (tokenRound_returned_iff (ht.inv hs) u).mpr (h t ht)

lemma takeToken_returned_iff {s : CborDecoder} (hs : Inv s) :
    (takeToken s).1.Returned ↔ ∀ t, Reads s t → ¬ BadHead t := by
  rcases hl : s.lookahead with _ | token
  · rw [takeToken_none s hl]
    exact readToken_returned_iff hs hl
  · rw [takeToken_some s hl]
    refine ⟨fun _ t ht => ?_, fun _ => trivial⟩
    rw [ht.1] at hl
    cases hl

lemma peekTokenInner_returned_iff {s : CborDecoder} (hs : Inv s) :
    (peekTokenInner s).1.Returned ↔ ∀ t, Reads s t → ¬ BadHead t := by
  rw [peekTokenInner, get_bind_run]
  rcases hl : s.lookahead with _ | token
  · rw [← readToken_returned_iff hs hl, bind_returned_iff]
    exact ⟨fun h => h.1, fun h => ⟨h, fun _ _ _ => trivial⟩⟩
  · refine ⟨fun _ t ht => ?_, fun _ => trivial⟩
    rw [ht.1] at hl
    cases hl

lemma expectToken_returned_iff {α : Type} {s : CborDecoder} (hs : Inv s) (expected : String)
    (pick : Token → Option α) :
    (expectToken expected pick s).1.Returned ↔ ∀ t, Reads s t → ¬ BadHead t := by
  rw [← takeToken_returned_iff hs, expectToken, bind_returned_iff]
  refine ⟨fun h => h.1, fun h => ⟨h, fun token t _ => ?_⟩⟩
  rcases pick token with _ | a
  · trivial
  · trivial

/-! ## Skipping a value -/

/-- A round of the loop of `skip_value` that starts in `s` takes a token. -/
def SkipsToken (saved : ℕ) (s : CborDecoder) : Prop :=
  saved < s.depth ∧ ∃ frame, s.frames.getLast? = some frame ∧ atEnd frame s = (.ok false, s)

/-- Whether a container is at its end is found out without touching the decoder. -/
lemma atEnd_eq {frame : Frame} {s t : CborDecoder} {finished : Bool}
    (h : atEnd frame s = (.ok finished, t)) : t = s := by
  rcases frame with ⟨kind, _ | remaining⟩
  · obtain ⟨byte, u, hpeek, hpure⟩ := bind_eq_ok.mp h
    rcases peekByte_cases s with ⟨_, -, -, heq⟩ | ⟨-, e, heq⟩ <;> rw [heq] at hpeek <;>
      cases hpeek
    cases hpure
    rfl
  · cases h
    rfl

lemma skipRound_returned_iff {saved : ℕ} {s : CborDecoder} (hs : Inv s) (u : Unit) :
    (skipRound saved u s).1.Returned ↔
      (SkipsToken saved s → ∀ t, Reads s t → ¬ BadHead t) := by
  rw [skipRound, get_bind_run]
  by_cases hlt : saved < s.depth
  · rw [if_pos hlt]
    rcases hlast : s.frames.getLast? with _ | frame
    · refine ⟨fun _ hskip => ?_, fun _ => trivial⟩
      obtain ⟨-, frame, hframe, -⟩ := hskip
      rw [hlast] at hframe
      cases hframe
    · dsimp only
      have hend := safe_atEnd frame s hs
      rw [bind_returned_iff]
      constructor
      · rintro ⟨-, h⟩ ⟨-, frame', hframe', hmore⟩
        rw [hlast] at hframe'
        cases hframe'
        have := (bind_returned_iff.mp (h false s hmore)).1
        exact (takeToken_returned_iff hs).mp this
      · intro h
        refine ⟨hend.1, fun finished t ht => ?_⟩
        obtain rfl := atEnd_eq ht
        cases finished with
        | true =>
            have hpass := returned_passBreak hs ht
            exact (returned_bind hpass.1 hpass.2 fun _ u _ hu =>
              safe_bind (safe_popFrame frame.kind) (fun _ => safe_pure _) u hu).1
        | false =>
            have htake := (takeToken_returned_iff hs).mpr (h ⟨hlt, frame, hlast, ht⟩)
            exact bind_returned_iff.mpr ⟨htake, fun _ _ _ => trivial⟩
  · rw [if_neg hlt]
    exact ⟨fun _ hskip => absurd hskip.1 hlt, fun _ => trivial⟩

/-- The invariant of the loop of `skip_value`. -/
lemma skipRound_keeps {saved : ℕ} {s t : CborDecoder} {u : Unit ⊕ Unit}
    (hs : Inv s ∧ s.lookahead = none) (h : skipRound saved () s = (.ok u, t)) :
    Inv t ∧ t.lookahead = none := by
  have h1 := primitive_inv.skipRound inv_popFrame saved () s hs.1
  have h2 := primitive_unpeeked.skipRound unpeeked_popFrame saved () s hs.2
  rw [h] at h1 h2
  exact ⟨h1, h2⟩

lemma passBreak_frames {frame : Frame} {s t : CborDecoder}
    (h : passBreak frame s = (.ok (), t)) : t.frames = s.frames := by
  rcases frame with ⟨kind, _ | remaining⟩
  · have hbump : bumpCursor s = (.ok (), t) := h
    rcases bumpCursor_cases s with ⟨-, heq⟩ | ⟨-, heq⟩ <;> rw [heq] at hbump <;> cases hbump
    rfl
  · cases h
    rfl

/-- A round of the loop of `skip_value` that asks for another one takes input, or closes a
container and takes none back. -/
lemma skipRound_measure {saved : ℕ} {s t : CborDecoder} {u u' : Unit}
    (hs : Inv s ∧ s.lookahead = none) (h : skipRound saved u s = (.ok (.inl u'), t)) :
    (maxDepth + 1) * t.rest + t.frames.length < (maxDepth + 1) * s.rest + s.frames.length := by
  have ht := skipRound_keeps hs h
  rw [skipRound, get_bind_run] at h
  by_cases hlt : saved < s.depth
  · rw [if_pos hlt] at h
    rcases hlast : s.frames.getLast? with _ | frame
    · rw [hlast] at h
      cases h
    · rw [hlast] at h
      obtain ⟨finished, v, hend, h⟩ := bind_eq_ok.mp h
      obtain rfl := atEnd_eq hend
      cases finished with
      | true =>
          obtain ⟨_, v', hpass, h⟩ := bind_eq_ok.mp h
          obtain ⟨_, w, hpop, h⟩ := bind_eq_ok.mp h
          cases h
          have hframes : v'.frames = v.frames := passBreak_frames hpass
          have hforward := primitive_forward.passBreak frame v
          have hforward' := forward_popFrame frame.kind v'
          rw [hpass] at hforward
          rw [hpop] at hforward'
          have hrest : t.rest ≤ v.rest := hforward'.rest_le.trans hforward.rest_le
          have hmul := Nat.mul_le_mul_left (maxDepth + 1) hrest
          have hlen : t.frames.length + 1 = v.frames.length := by
            rcases popFrame_cases v' frame.kind with ⟨d, hd, definite, -, -, heq⟩ |
              ⟨-, e, heq⟩ | ⟨-, -, heq⟩ <;> rw [heq] at hpop <;> cases hpop
            have hne : 0 < v.frames.length := by
              rcases hv : v.frames with _ | ⟨f, fs⟩
              · simp [hv] at hlast
              · simp
            rw [List.length_dropLast, hframes]
            omega
          omega
      | false =>
          obtain ⟨token, w, htake, h⟩ := bind_eq_ok.mp h
          cases h
          have hrest := takeToken_rest_lt hs.2 htake
          have hmul := Nat.mul_le_mul_left (maxDepth + 1) (Nat.succ_le_of_lt hrest)
          have := ht.1.frames_le
          have := ht.1.depth_le
          rw [Nat.mul_succ] at hmul
          omega
  · rw [if_neg hlt] at h
    cases h

/-- What a round of the loop of `skip_value` makes smaller. -/
def skipMeasure (s : CborDecoder) : ℕ := (maxDepth + 1) * s.rest + s.frames.length

lemma skipLoop_keeps {saved : ℕ} {s t : CborDecoder} {u : Unit} (hs : Inv s)
    (hl : s.lookahead = none) (hv : Visits (skipRound saved) () s u t) :
    Inv t ∧ t.lookahead = none :=
  hv.induct (P := fun _ t => Inv t ∧ t.lookahead = none)
    (fun _ _ _ _ ht h => skipRound_keeps ht h) ⟨hs, hl⟩

/-- The loop of `skip_value` has enough rounds. -/
lemma skipMeasure_lt {s : CborDecoder} (hs : Inv s) :
    skipMeasure s < (maxDepth + 1) * (s.input.bytes.length + 1) := by
  have hrest : s.rest ≤ s.input.bytes.length := Nat.sub_le _ _
  have hmul := Nat.mul_le_mul_left (maxDepth + 1) hrest
  have := hs.frames_le
  have := hs.depth_le
  rw [skipMeasure, Nat.mul_succ]
  omega

/-- The loop of `skip_value` returns exactly when none of its rounds reads a bad head. -/
lemma skipLoop_returned_iff {saved : ℕ} {s : CborDecoder} (hs : Inv s)
    (hl : s.lookahead = none) :
    (iterate (skipRound saved) ((maxDepth + 1) * (s.input.bytes.length + 1)) () s).1.Returned ↔
      ∀ t, Visits (skipRound saved) () s () t → SkipsToken saved t →
        ∀ u, Reads t u → ¬ BadHead u := by
  rw [iterate_returned_iff (fun _ t => skipMeasure t)
    (fun u t u' t' hv h => skipRound_measure (skipLoop_keeps hs hl hv) h) (skipMeasure_lt hs)]
  constructor
  · exact fun h t hv => (skipRound_returned_iff (skipLoop_keeps hs hl hv).1 ()).mp (h () t hv)
  · exact fun h u t hv => (skipRound_returned_iff (skipLoop_keeps hs hl hv).1 u).mpr (h t hv)

/-! ## The bad heads that a call meets -/

variable {narrow : Number → Option UInt8}

/-- `skip_value` in `s` reads a token head in `t`: its first token, or one of a later round. -/
def SkipReads (s t : CborDecoder) : Prop :=
  Reads s t ∨ ∃ token s', takeToken s = (.ok token, s') ∧
    ∃ u, Visits (skipRound s.depth) () s' () u ∧ SkipsToken s.depth u ∧ Reads u t

lemma skipValueInner_returned_iff {s : CborDecoder} (hs : Inv s) :
    (skipValueInner s).1.Returned ↔ ∀ t, SkipReads s t → ¬ BadHead t := by
  have hrun : skipValueInner s = (takeToken >>= fun _ => Act.get >>= fun t =>
      iterate (skipRound s.depth) ((maxDepth + 1) * (t.input.bytes.length + 1)) ()) s := rfl
  rw [hrun, bind_returned_iff, takeToken_returned_iff hs]
  have hnext : ∀ token t, takeToken s = (.ok token, t) → Inv t ∧ t.lookahead = none := by
    intro token t h
    have := primitive_inv.takeToken s hs
    rw [h] at this
    exact ⟨this, takeToken_lookahead h⟩
  constructor
  · rintro ⟨hfirst, hloop⟩ t (ht | ⟨token, s', htake, u, hv, hskip, hread⟩)
    · exact hfirst t ht
    · have hs' := hnext token s' htake
      exact (skipLoop_returned_iff hs'.1 hs'.2).mp (hloop token s' htake) u hv hskip t hread
  · intro h
    refine ⟨fun t ht => h t (.inl ht), fun token s' htake => ?_⟩
    have hs' := hnext token s' htake
    refine (skipLoop_returned_iff hs'.1 hs'.2).mpr fun u hv hskip t hread => ?_
    exact h t (.inr ⟨token, s', htake, u, hv, hskip, hread⟩)

/-- The array of numbers that `bytes` reads: after its head, every round that has an element
reads a number. -/
def BytesReads (narrow : Number → Option UInt8) (s t : CborDecoder) : Prop :=
  ∃ byte : UInt8, orFail peekByte s = (.ok byte, s) ∧
    (byte.toNat / 2 ^ 5 = 3 ∧ Reads s t ∨
      byte.toNat / 2 ^ 5 = 4 ∧ (Reads s t ∨ ∃ s', beginArray s = (.ok (), s') ∧
        ∃ out u, Visits (bytesRound narrow) [] s' out u ∧ hasMore u = (.ok true, u) ∧
          Reads u t))

lemma hasMore_eq {s t : CborDecoder} {more : Bool} (h : hasMore s = (.ok more, t)) : t = s := by
  rw [hasMore, get_bind_run] at h
  cases hl : s.lookahead.isSome with
  | true =>
      rw [hl] at h
      cases h
      rfl
  | false =>
      rw [hl] at h
      rcases hlast : s.frames.getLast? with _ | frame
      · rw [hlast] at h
        cases h
      · rw [hlast] at h
        obtain ⟨finished, u, hend, hpure⟩ := bind_eq_ok.mp h
        cases hpure
        exact atEnd_eq hend

lemma u8_returned_iff {s : CborDecoder} (hs : Inv s) :
    (u8 narrow s).1.Returned ↔ ∀ t, Reads s t → ¬ BadHead t := by
  rw [u8, bind_returned_iff, number, expectToken_returned_iff hs]
  refine ⟨fun h => h.1, fun h => ⟨h, fun value t _ => ?_⟩⟩
  rcases narrow value with _ | byte
  · trivial
  · trivial

lemma bytesRound_returned_iff {s : CborDecoder} (hs : Inv s) (out : List UInt8) :
    (bytesRound narrow out s).1.Returned ↔
      (hasMore s = (.ok true, s) → ∀ t, Reads s t → ¬ BadHead t) := by
  rw [bytesRound, bind_returned_iff]
  constructor
  · rintro ⟨-, h⟩ hmore
    have hbyte := (bind_returned_iff.mp (h true s hmore)).1
    exact (u8_returned_iff hs).mp hbyte
  · intro h
    refine ⟨(safe_hasMore s hs).1, fun more t hmore => ?_⟩
    obtain rfl := hasMore_eq hmore
    cases more with
    | false => trivial
    | true =>
        have hbyte : (u8 narrow t).1.Returned := (u8_returned_iff hs).mpr (h hmore)
        have hinv := primitive_inv.u8 narrow t hs
        refine (returned_bind hbyte hinv fun byte u _ hu => ?_).1
        refine safe_bind safe_entrySep (fun another => ?_) u hu
        cases another
        · exact safe_pure _
        · exact safe_pure _

lemma u8_rest_lt {s t : CborDecoder} {byte : UInt8} (hl : s.lookahead = none)
    (h : u8 narrow s = (.ok byte, t)) : t.rest < s.rest := by
  refine rest_lt_of_bind (fun value u hu => ?_) (fun value => ?_) h
  · refine rest_lt_of_bind (fun token v hv => takeToken_rest_lt hl hv) (fun token => ?_) hu
    split
    · exact primitive_forward.pure _
    · exact primitive_forward.invalidType _ _
  · split
    · exact primitive_forward.pure _
    · exact primitive_forward.throw _

/-- A round of the loop of `bytes` that asks for another one takes input. -/
lemma bytesRound_rest_lt {s t : CborDecoder} {out out' : List UInt8} (hl : s.lookahead = none)
    (h : bytesRound narrow out s = (.ok (.inl out'), t)) : t.rest < s.rest := by
  obtain ⟨more, u, hmore, hround⟩ := bind_eq_ok.mp h
  obtain rfl := hasMore_eq hmore
  cases more with
  | false => cases hround
  | true =>
      refine rest_lt_of_bind (fun byte v hv => u8_rest_lt hl hv) (fun byte => ?_) hround
      refine primitive_forward.bind primitive_forward.entrySep fun another => ?_
      cases another
      · exact primitive_forward.pure _
      · exact primitive_forward.pure _

/-- The loop of `bytes` returns exactly when none of its rounds reads a bad head. -/
lemma bytesLoop_returned_iff (narrow : Number → Option UInt8) {s : CborDecoder} (hs : Inv s)
    (hl : s.lookahead = none) :
    (iterate (bytesRound narrow) (s.input.bytes.length + 1) [] s).1.Returned ↔
      ∀ out t, Visits (bytesRound narrow) [] s out t → hasMore t = (.ok true, t) →
        ∀ u, Reads t u → ¬ BadHead u := by
  have hkeeps : ∀ out t, Visits (bytesRound narrow) [] s out t → Inv t ∧ t.lookahead = none :=
    fun out t hv => hv.induct (P := fun _ t => Inv t ∧ t.lookahead = none)
      (fun out t out' t' ht h => by
        have h1 := primitive_inv.bytesRound narrow out t ht.1
        have h2 := primitive_unpeeked.bytesRound narrow out t ht.2
        rw [h] at h1 h2
        exact ⟨h1, h2⟩) ⟨hs, hl⟩
  rw [iterate_returned_iff (fun _ t => t.rest)
    (fun out t out' t' hv h => bytesRound_rest_lt (hkeeps out t hv).2 h)
    (Nat.lt_succ_of_le (Nat.sub_le _ _))]
  constructor
  · exact fun h out t hv => (bytesRound_returned_iff (hkeeps out t hv).1 out).mp (h out t hv)
  · exact fun h out t hv => (bytesRound_returned_iff (hkeeps out t hv).1 out).mpr (h out t hv)

lemma beginArray_next {s t : CborDecoder} (hs : Inv s) (h : beginArray s = (.ok (), t)) :
    Inv t ∧ t.lookahead = none := by
  refine ⟨?_, ?_⟩
  · have hbegin : Inv (beginArray s).2 := primitive_inv.expectToken _ _ s hs
    rwa [h] at hbegin
  · obtain ⟨token, u, htake, hpick⟩ := bind_eq_ok.mp h
    have hu := takeToken_lookahead htake
    rcases token with _ | _ | _ | _ | _ | _ | _ | _ <;> cases hpick
    exact hu

/-- The head of a byte string is not that of a float. -/
lemma returned_readBytes {s : CborDecoder} (hs : Inv s) {byte : UInt8}
    (hbyte : s.input.bytes[s.cursor]? = some byte) (hmajor : byte.toNat / 2 ^ 5 = 2) :
    ((readHead >>= fun head => readBytes head.2) s).1.Returned := by
  refine bind_returned_iff.mpr ⟨(safe_readHead s hs).1, fun head t hread => ?_⟩
  rcases readHead_cases s with ⟨major, argument, u, heq, hhead⟩ | ⟨u, heq⟩
  · rw [heq] at hread
    cases hread
    have ht := hhead.inv hs
    obtain ⟨byte', hbyte', -, hmajor', -⟩ := hhead.byte
    rw [hbyte] at hbyte'
    cases hbyte'
    by_cases harg : argument = .indefinite
    · subst harg
      exact (safe_readChunks _ _ _ t ht).1
    · obtain ⟨v, rfl, -⟩ := hhead.value (by omega) harg
      exact (safe_take v t ht).1
  · rw [heq] at hread
    cases hread

lemma bytes_returned_iff {s : CborDecoder} (hs : Inv s) :
    (bytes narrow s).1.Returned ↔ ∀ t, BytesReads narrow s t → ¬ BadHead t := by
  rcases peekByte_cases s with ⟨byte, hbyte, -, hpeek⟩ | ⟨-, e, hpeek⟩
  · have hreads : ∀ t, BytesReads narrow s t ↔
        byte.toNat / 2 ^ 5 = 3 ∧ Reads s t ∨
        byte.toNat / 2 ^ 5 = 4 ∧ (Reads s t ∨ ∃ s', beginArray s = (.ok (), s') ∧
          ∃ out u, Visits (bytesRound narrow) [] s' out u ∧ hasMore u = (.ok true, u) ∧
            Reads u t) := by
      intro t
      constructor
      · rintro ⟨byte', hpeek', h⟩
        rw [hpeek] at hpeek'
        cases hpeek'
        exact h
      · exact fun h => ⟨byte, hpeek, h⟩
    rw [bytes, bind_of_ok hpeek]
    dsimp only
    by_cases h2 : byte.toNat / 2 ^ 5 = 2
    · rw [if_pos h2]
      refine ⟨fun _ t ht => ?_, fun _ => returned_readBytes hs hbyte h2⟩
      rcases (hreads t).mp ht with ⟨h3, -⟩ | ⟨h4, -⟩ <;> omega
    · rw [if_neg h2]
      by_cases h3 : byte.toNat / 2 ^ 5 = 3
      · rw [if_pos h3, bind_returned_iff, string, expectToken_returned_iff hs]
        constructor
        · rintro ⟨h, -⟩ t ht
          rcases (hreads t).mp ht with ⟨-, hread⟩ | ⟨h4, -⟩
          · exact h t hread
          · omega
        · exact fun h => ⟨fun t ht => h t ((hreads t).mpr (.inl ⟨h3, ht⟩)), fun _ _ _ => trivial⟩
      · rw [if_neg h3]
        by_cases h4 : byte.toNat / 2 ^ 5 = 4
        · rw [if_pos h4, bind_returned_iff, beginArray, expectToken_returned_iff hs]
          constructor
          · rintro ⟨h, hloop⟩ t ht
            rcases (hreads t).mp ht with ⟨h3', -⟩ | ⟨-, hread | ⟨s', hbegin, out, u, hv, hmore,
              hread⟩⟩
            · exact absurd h3' h3
            · exact h t hread
            · have hs' := beginArray_next hs hbegin
              have hafter := hloop () s' hbegin
              rw [get_bind_run] at hafter
              have hrounds := (bind_returned_iff.mp hafter).1
              exact (bytesLoop_returned_iff narrow hs'.1 hs'.2).mp hrounds out u hv hmore t hread
          · intro h
            refine ⟨fun t ht => h t ((hreads t).mpr (.inr ⟨h4, .inl ht⟩)), fun u s' hbegin => ?_⟩
            have hs' := beginArray_next hs hbegin
            have hrounds := (bytesLoop_returned_iff narrow hs'.1 hs'.2).mpr
              fun out u hv hmore t hread =>
                h t ((hreads t).mpr (.inr ⟨h4, .inr ⟨s', hbegin, out, u, hv, hmore, hread⟩⟩))
            have hinv := primitive_inv.iterate (primitive_inv.bytesRound narrow)
              (s'.input.bytes.length + 1) [] s' hs'.1
            rw [get_bind_run]
            exact (returned_bind hrounds hinv fun out u _ hu =>
              safe_bind (safe_endContainer .array) (fun _ => safe_pure out) u hu).1
        · rw [if_neg h4]
          refine ⟨fun _ t ht => ?_, fun _ => trivial⟩
          rcases (hreads t).mp ht with ⟨h, -⟩ | ⟨h, -⟩
          · exact absurd h h3
          · exact absurd h h4
  · rw [bytes, bind_of_err hpeek]
    refine ⟨fun _ t ht => ?_, fun _ => trivial⟩
    obtain ⟨byte, hpeek', -⟩ := ht
    rw [hpeek] at hpeek'
    cases hpeek'

/-- The call `call` made in `s` reads a token head in `t`. -/
def Meets (narrow : Number → Option UInt8) (call : CborCall) (s t : CborDecoder) : Prop :=
  match call with
  | .bytes => BytesReads narrow s t
  | .optionTag => False
  | .required call =>
      match call with
      | .skipValue => SkipReads s t
      | .beginObject | .beginArray | .unit | .bool | .number | .string | .char | .peekToken
      | .nextToken => Reads s t
      | .endObject | .objectKey | .objectEntrySep | .endArray | .arrayHasMore | .arrayEntrySep
      | .save | .restore _ | .setExpecting _ | .isHumanReadable => False

lemma char_returned_iff {s : CborDecoder} (hs : Inv s) :
    (CborDecoder.char s).1.Returned ↔ ∀ t, Reads s t → ¬ BadHead t := by
  rw [CborDecoder.char, bind_returned_iff, expectToken_returned_iff hs]
  refine ⟨fun h => h.1, fun h => ⟨h, fun text t _ => ?_⟩⟩
  rcases singleChar text with _ | c
  · trivial
  · trivial

/-- A call panics exactly when it reads a token at a bad head; every other call returns. -/
theorem step_returned_iff {s : CborDecoder} (hs : Inv s) (call : CborCall) :
    (step narrow call s).1.Returned ↔ ∀ t, Meets narrow call s t → ¬ BadHead t := by
  have hsafe : ∀ {α : Type} {m : Dec α} {f : α → Answer}, Safe m →
      (((f <$> m) s).1.Returned ↔ ∀ t, False → ¬ BadHead t) := by
    intro α m f hm
    rw [map_returned_iff]
    exact ⟨fun _ _ h => h.elim, fun _ => (hm s hs).1⟩
  cases call with
  | bytes => exact map_returned_iff.trans (bytes_returned_iff hs)
  | optionTag => exact hsafe safe_optionTag
  | required call =>
      cases call with
      | beginObject => exact map_returned_iff.trans (expectToken_returned_iff hs _ _)
      | beginArray => exact map_returned_iff.trans (expectToken_returned_iff hs _ _)
      | unit => exact map_returned_iff.trans (expectToken_returned_iff hs _ _)
      | bool => exact map_returned_iff.trans (expectToken_returned_iff hs _ _)
      | number => exact map_returned_iff.trans (expectToken_returned_iff hs _ _)
      | string => exact map_returned_iff.trans (expectToken_returned_iff hs _ _)
      | char => exact map_returned_iff.trans (char_returned_iff hs)
      | peekToken => exact map_returned_iff.trans (peekTokenInner_returned_iff hs)
      | nextToken => exact map_returned_iff.trans (takeToken_returned_iff hs)
      | skipValue => exact map_returned_iff.trans (skipValueInner_returned_iff hs)
      | endObject => exact hsafe (safe_endContainer .object)
      | endArray => exact hsafe (safe_endContainer .array)
      | objectKey => exact hsafe safe_objectKey
      | objectEntrySep => exact hsafe safe_entrySep
      | arrayEntrySep => exact hsafe safe_entrySep
      | arrayHasMore => exact hsafe safe_hasMore
      | save => exact ⟨fun _ _ h => h.elim, fun _ => trivial⟩
      | restore mark => exact ⟨fun _ _ h => h.elim, fun _ => trivial⟩
      | setExpecting text => exact ⟨fun _ _ h => h.elim, fun _ => trivial⟩
      | isHumanReadable => exact ⟨fun _ _ h => h.elim, fun _ => trivial⟩

/-- Every call of a run on a new decoder returns, with a value or an error, if and only if
none of the calls reads a token at a bad head. -/
theorem run_returned_iff (narrow : Number → Option UInt8) (input : Input) (config : Config)
    (calls : List CborCall) :
    (∀ o ∈ (run (step narrow) calls (new input config)).1, o.Returned) ↔
      EachCall (step narrow) (fun call s => ∀ t, Meets narrow call s t → ¬ BadHead t) calls
        (new input config) :=
  run_forall_iff (fun call _ => inv_step narrow call)
    (fun call _ hs => step_returned_iff hs call) calls (inv_new input config)

/-- The first byte of the input decides: an indefinite unsigned or negative integer and an
indefinite tag reach the `unreachable!` of `HeadArg::value`. -/
theorem nextToken_panics :
    (run (step narrowUnsigned) [.required .nextToken]
      (new ⟨[0x1f], by decide⟩ Config.standard)).1 = [.panic] ∧
    (run (step narrowUnsigned) [.required .peekToken]
      (new ⟨[0x3f], by decide⟩ Config.standard)).1 = [.panic] ∧
    (run (step narrowUnsigned) [.required .skipValue]
      (new ⟨[0xdf], by decide⟩ Config.standard)).1 = [.panic] := by
  decide

end RustBinary.Cbor
