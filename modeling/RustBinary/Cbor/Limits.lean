import RustBinary.Cbor.Invariant
import RustBinary.Cbor.Encoder

/-!
# The limits of the CBOR codec

Bytes are held against the byte limit wherever the cursor moves, also over a break, which is looked
at before it is passed.  Nesting is held against the size of the counter table and not against the
configured depth; the collection limit bounds what the head of a definite container declares and the
separators that are counted.
-/

namespace RustBinary.Cbor

open Lib Lib.Act

/-! ## The decoder -/

section Decoder

open CborDecoder

/-- The decoder `s` keeps within the limits of the configuration `c`. -/
structure CborDecoder.WithinLimits (c : Config) (s : CborDecoder) : Prop where
  under : s.config = c
  cursor_le : ∀ l, c.limit = some l → s.cursor ≤ l
  depth_le : s.depth ≤ maxDepth
  counts_le : ∀ l, c.collectionLimit = some l → ∀ (i : ℕ) (hi : i < maxDepth), s.counts[i] ≤ l
  frames_le : ∀ l, c.collectionLimit = some l → ∀ frame ∈ s.frames, ∀ remaining,
    frame.definite = some remaining → remaining ≤ l

variable {c : Config}

lemma withinLimits_new (input : Input) (c : Config) : WithinLimits c (new input c) where
  under := rfl
  cursor_le _ _ := Nat.zero_le _
  depth_le := Nat.zero_le _
  counts_le _ _ _ hi := (Vector.getElem_replicate hi).trans_le (Nat.zero_le _)
  frames_le _ _ _ h := by cases h

lemma guarded_within :
    Guarded fun _ m => Moves (fun s t => WithinLimits c s → WithinLimits c t) m := by
  refine guarded_moves (fun _ h => h) (fun _ _ _ h1 h2 h => h2 (h1 h)) ?_ ?_ ?_ ?_ ?_ ?_
  · exact fun s e h => { h with }
  · exact fun s n hn h => { h with cursor_le := fun l hl => hn l (by rw [h.under, hl]) }
  · exact fun s h => { h with }
  · intro s kind next hlast h
    refine { h with frames_le := fun l hl frame hframe remaining hdefinite => ?_ }
    rcases List.mem_append.mp hframe with hmem | hmem
    · exact h.frames_le l hl frame (List.dropLast_subset _ hmem) remaining hdefinite
    · obtain rfl := List.mem_singleton.mp hmem
      cases hdefinite
      have := h.frames_le l hl _ (List.mem_of_getLast? hlast) _ rfl
      omega
  · intro s frame hd hle h
    refine { h with depth_le := hd, frames_le := fun l hl o ho remaining hdefinite => ?_ }
    rcases List.mem_append.mp ho with hmem | hmem
    · exact h.frames_le l hl o hmem remaining hdefinite
    · obtain rfl := List.mem_singleton.mp hmem
      exact hle remaining hdefinite l (by rw [h.under, hl])
  · intro s index count hi hd hle h
    refine { h with counts_le := fun l hl i hi' => ?_ }
    simp only [Vector.getElem_set]
    split
    · exact hle l (by rw [h.under, hl])
    · exact h.counts_le l hl i hi'

lemma within_popFrame (kind : ContainerKind) :
    Moves (fun s t => WithinLimits c s → WithinLimits c t) (popFrame kind) := by
  intro s h
  rcases popFrame_cases s kind with ⟨d, hd, definite, hdepth, -, heq⟩ | ⟨-, e, heq⟩ | ⟨-, -, heq⟩
  · rw [heq]
    exact {
      under := h.under
      cursor_le := h.cursor_le
      depth_le := hd.le
      counts_le := fun l hl i hi => by
        simp only [Vector.getElem_set]
        split
        · exact Nat.zero_le _
        · exact h.counts_le l hl i hi
      frames_le := fun l hl frame hframe =>
        h.frames_le l hl frame (List.dropLast_subset _ hframe) }
  · rw [heq]
    exact { h with }
  · rw [heq]
    exact h

lemma within_restore {mark : Mark} (hpos : ∀ l, c.limit = some l → mark.pos ≤ l) :
    Moves (fun s t => WithinLimits c s → WithinLimits c t) (restore mark) := fun s h =>
  { under := h.under
    cursor_le := hpos
    depth_le := Nat.min_le_right _ _
    counts_le := fun l hl i hi => by
      simp only [restore, modify_run, getElem_clearFrom]
      split
      · exact h.counts_le l hl i hi
      · exact Nat.zero_le _
    frames_le := fun l hl frame hframe => h.frames_le l hl frame (List.mem_of_mem_take hframe) }

/-- The marks that a call may go back to are within the byte limit. -/
def MarkWithin (c : Config) (call : CborCall) : Prop :=
  ∀ mark, call = .required (.restore mark) → ∀ l, c.limit = some l → mark.pos ≤ l

/-- A mark that `save` gives within the limits is one of them. -/
lemma markWithin_saved {narrow : Number → Option UInt8} {mark : Mark} {s t : CborDecoder}
    (hs : WithinLimits c s) (h : step narrow (.required .save) s = (.ok (.mark mark), t)) :
    MarkWithin c (.required (.restore mark)) := by
  cases h
  rintro _ ⟨⟩
  exact hs.cursor_le

lemma within_step (narrow : Number → Option UInt8) {call : CborCall} (hmark : MarkWithin c call)
    {s : CborDecoder} (hs : WithinLimits c s) : WithinLimits c (step narrow call s).2 :=
  guarded_within.method narrow call within_popFrame
    (fun mark heq => within_restore (hmark mark heq)) (fun _ _ h => { h with })
    (fun _ _ h => { h with }) s hs

/-- The decoders that a call goes through: before and after it, and in the rounds of the loops that
go over a container. -/
inductive During (narrow : Number → Option UInt8) :
    CborCall → CborDecoder → CborDecoder → Prop
  | start (call : CborCall) (s : CborDecoder) : During narrow call s s
  | skip {s t u : CborDecoder} {token : Token} (h : takeToken s = (.ok token, t))
      (hv : Visits (skipRound s.depth) () t () u) : During narrow (.required .skipValue) s u
  | bytes {s t u : CborDecoder} {out : List UInt8} (h : beginArray s = (.ok (), t))
      (hv : Visits (bytesRound narrow) [] t out u) : During narrow .bytes s u
  | finish (call : CborCall) (s : CborDecoder) : During narrow call s (step narrow call s).2

/-- A call is within the limits all along. -/
lemma within_during {narrow : Number → Option UInt8} {call : CborCall} (hmark : MarkWithin c call)
    {s t : CborDecoder} (hs : WithinLimits c s) (h : During narrow call s t) : WithinLimits c t := by
  cases h with
  | start => exact hs
  | @skip s t u token h hv =>
      have ht := guarded_within.takeToken s hs
      rw [h] at ht
      refine hv.induct (P := fun _ v => WithinLimits c v) (fun _ v _ v' hv hround => ?_) ht
      have hv' := guarded_within.skipRound within_popFrame s.depth () v hv
      rwa [hround] at hv'
  | @bytes s t u out h hv =>
      have ht : WithinLimits c (beginArray s).2 := guarded_within.expectToken _ _ s hs
      rw [h] at ht
      refine hv.induct (P := fun _ v => WithinLimits c v) (fun out v _ v' hv hround => ?_) ht
      have hv' := guarded_within.bytesRound narrow out v hv
      rwa [hround] at hv'
  | finish => exact within_step narrow hmark hs

/-- Every call of a run is within the limits all along. -/
lemma run_during (narrow : Number → Option UInt8) (calls : List CborCall)
    (hmarks : ∀ call ∈ calls, MarkWithin c call) {s : CborDecoder} (hs : WithinLimits c s) :
    EachCall (step narrow) (fun call s => ∀ t, During narrow call s t → WithinLimits c t) calls
      s := by
  induction calls generalizing s with
  | nil => trivial
  | cons call calls ih =>
      have hmark := hmarks call List.mem_cons_self
      exact ⟨fun t h => within_during hmark hs h,
        ih (fun call h => hmarks call (List.mem_cons_of_mem _ h)) (within_step narrow hmark hs)⟩

end Decoder

/-! ## The encoder -/

/-- The calls a `CborEncoder` answers. -/
inductive EncoderCall where
  | beginArray
  | separator
  | endArray
  | beginObject
  | key (text : String)
  | endObject
  | write (value : Leaf)
  | writeSome

section Encoder

open Native (EncodeWriter)

variable {W : Type} [EncodeWriter W] {c : Config}

open CborEncoder

/-- The method behind a call. -/
def EncoderCall.method : EncoderCall → Enc W Unit
  | beginArray => CborEncoder.beginArray
  | separator => CborEncoder.separator
  | endArray => CborEncoder.endArray
  | beginObject => CborEncoder.beginObject
  | key text => CborEncoder.key text
  | endObject => CborEncoder.endObject
  | write value => value.write
  | writeSome => pure ()

/-- A call made on an encoder: its outcome and the encoder after it. -/
def encoderStep (call : EncoderCall) (s : CborEncoder W) :
    Outcome NextjsonError Unit × CborEncoder W :=
  call.method s

/-- The encoder `s` keeps within the limits of the configuration `c`. -/
structure CborEncoder.WithinLimits (c : Config) (s : CborEncoder W) : Prop where
  under : s.config = c
  written_le : ∀ l, c.limit = some l → s.written ≤ l
  depth_le : s.depth ≤ maxDepth
  counts_le : ∀ l, c.collectionLimit = some l → ∀ (i : ℕ) (hi : i < maxDepth), s.counts[i] ≤ l

/-- The action keeps the encoder within the limits. -/
def Stays {ε α : Type} (c : Config) (m : Act (CborEncoder W) ε α) : Prop :=
  Moves (fun s t => WithinLimits c s → WithinLimits c t) m

omit [EncodeWriter W] in
lemma closed_stays {ε : Type} : Closed (σ := CborEncoder W) (ε := ε) fun _ m => Stays c m :=
  closed_moves (fun _ h => h) fun _ _ _ h1 h2 h => h2 (h1 h)

omit [EncodeWriter W] in
lemma stays_fail {α : Type} (e : Error) : Stays c (fail e : Enc W α) := fun _ h => { h with }

omit [EncodeWriter W] in
lemma stays_orFail {α : Type} {m : Act (CborEncoder W) Error α} (h : Stays c m) :
    Stays c (orFail m) :=
  moves_onErr (fun _ _ _ h1 h2 h => h2 (h1 h)) h stays_fail

/-- Bytes are written within the byte limit. -/
lemma stays_emit (bytes : List UInt8) : Stays c (orFail (emit bytes) : Enc W Unit) := by
  refine stays_orFail fun s hs => ?_
  rw [emit, get_bind_run]
  refine bind_snd (closed_stays.okOr _ _ s hs) fun next t hnext => ?_
  obtain ⟨-, rfl⟩ := okOr_eq_ok.mp hnext
  refine bind_snd (closed_stays.atMost _ _ _ t hs) fun _ u hat => ?_
  obtain ⟨hle, rfl⟩ := atMost_eq_ok.mp hat
  rw [writeCounted]
  rcases EncodeWriter.writeAll bytes u.writer with ⟨_ | _ | _ | _, writer⟩
  · exact { hs with written_le := fun l hl => hle l (by rw [hs.under, hl]) }
  all_goals exact { hs with }

omit [EncodeWriter W] in
lemma stays_enterContainer : Stays c (enterContainer : Enc W Unit) := by
  intro s h
  rw [enterContainer, get_bind_run]
  split
  · exact { h with }
  · next hlt => exact { h with depth_le := Nat.lt_of_not_le hlt }

lemma stays_exitContainer : Stays c (exitContainer : Enc W Unit) := by
  intro s h
  rw [exitContainer, get_bind_run]
  rcases s.depth with _ | d
  · exact { h with }
  · dsimp only
    by_cases hd : d < maxDepth
    · rw [dif_pos hd, modify_bind_run]
      refine stays_emit [0xff] _ { h with depth_le := hd.le, counts_le := fun l hl i hi => ?_ }
      simp only [Vector.getElem_set]
      split
      · exact Nat.zero_le _
      · exact h.counts_le l hl i hi
    · rw [dif_neg hd]
      exact h

omit [EncodeWriter W] in
/-- Elements are counted within the collection limit. -/
lemma stays_countElement : Stays c (countElement : Enc W Unit) := by
  intro s h
  rw [countElement, get_bind_run]
  rcases s.depth with _ | index
  · exact { h with }
  · dsimp only
    by_cases hi : index < maxDepth
    · rw [dif_pos hi]
      cases checkedAdd s.counts[index] 1 with
      | none => exact { h with }
      | some count =>
          change CborEncoder.WithinLimits c ((orFail (atMost s.config.collectionLimit count
            Error.collectionLimit) >>= fun _ => Act.modify fun s : CborEncoder W =>
              { s with counts := s.counts.set index count hi }) s).2
          rcases atMost_cases (σ := CborEncoder W) s.config.collectionLimit count
            Error.collectionLimit with ⟨hle, hat⟩ | ⟨l, -, -, hat⟩
          · have hcounted : CborEncoder.WithinLimits c
                { s with counts := s.counts.set index count hi } := by
              refine { h with counts_le := fun l hl i hi' => ?_ }
              simp only [Vector.getElem_set]
              split
              · exact hle l (by rw [h.under, hl])
              · exact h.counts_le l hl i hi'
            rw [hat]
            exact hcounted
          · rw [hat]
            exact { h with }
    · rw [dif_neg hi]
      exact h

lemma stays_head (major : UInt8) (argument : ℕ) :
    Stays c (CborEncoder.head major argument : Enc W Unit) :=
  stays_emit _

lemma stays_unsigned (value : ℕ) : Stays c (unsigned value : Enc W Unit) := by
  rw [unsigned]
  refine closed_stays.ite (stays_head _ _) ?_
  exact closed_stays.bind (stays_head _ _) fun _ => closed_stays.bind (stays_head _ _) fun _ =>
    stays_emit _

lemma stays_signed (value : ℤ) : Stays c (signed value : Enc W Unit) := by
  rw [signed]
  refine closed_stays.ite (stays_unsigned _) (closed_stays.ite (stays_head _ _) ?_)
  exact closed_stays.bind (stays_head _ _) fun _ => closed_stays.bind (stays_head _ _) fun _ =>
    stays_emit _

lemma stays_writeText (value : String) : Stays c (writeText value : Enc W Unit) :=
  closed_stays.bind (stays_head _ _) fun _ => stays_emit _

lemma stays_write (value : Leaf) : Stays c (value.write : Enc W Unit) := by
  rcases value with (_ | _ | _ | _ | _ | _ | _ | _ | _ | _) | _
  · exact stays_emit _
  · exact stays_emit _
  · exact stays_unsigned _
  · exact stays_unsigned _
  · exact stays_signed _
  · exact stays_signed _
  · exact closed_stays.bind (stays_emit _) fun _ => stays_emit _
  · exact closed_stays.bind (stays_emit _) fun _ => stays_emit _
  · exact stays_writeText _
  · exact stays_writeText _
  · exact closed_stays.bind (stays_head _ _) fun _ => stays_emit _

/-- Every call keeps the encoder within the limits. -/
lemma stays_method (call : EncoderCall) : Stays c (call.method : Enc W Unit) := by
  cases call with
  | beginArray | beginObject =>
      exact closed_stays.bind stays_enterContainer fun _ => stays_emit _
  | separator => exact stays_countElement
  | endArray | endObject => exact stays_exitContainer
  | key text => exact closed_stays.bind stays_countElement fun _ => stays_writeText text
  | write value => exact stays_write value
  | writeSome => exact closed_stays.pure ()

omit [EncodeWriter W] in
lemma withinLimits_newEncoder (writer : W) (c : Config) :
    (CborEncoder.new writer c).WithinLimits c where
  under := rfl
  written_le _ _ := Nat.zero_le _
  depth_le := Nat.zero_le _
  counts_le _ _ _ hi := (Vector.getElem_replicate hi).trans_le (Nat.zero_le _)

end Encoder

section Depth

/-- A configuration that admits no container. -/
def flat : Config :=
  { Config.standard with
    depthLimit := 0
    depthLimit_le := Nat.zero_le _ }

/-- The decoder before an empty array. -/
def emptyArray : CborDecoder := CborDecoder.new ⟨[0x80], by decide⟩ flat

end Depth

end RustBinary.Cbor
