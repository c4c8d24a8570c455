import RustBinary.Archive.Queue
import RustBinary.Lib.Frame

/-!
# What the buffer holds

`Record.Stored` says that a value stands in a buffer as the writer means it: the scalars in the
skeleton, and in every pointer the distance to the body of the same field.  While nothing is
taken out of the queue in the wrong place, the bodies phase overwrites the pointers of its record
only, and leaves the value stored (`Record.writeBodies_stored`).
-/

namespace RustBinary.Archive

open Lib Lib.Outcome

variable {env : ℕ → Fields} {fs : Fields} {bytes bytes' : List UInt8} {holes : List ℕ}

/-! ## Stored values -/

/-- The scalars of a record stand in a skeleton that was written from the length `start` on. -/
def Record.Inline (bytes : List UInt8) {fs : Fields} : Record env fs → ℕ → Prop
  | .nil, _ => True
  | @Record.scalar _ s _ value tail, start =>
      slice bytes (roundUp start s.size) (roundUp start s.size + s.size) = some value.toList ∧
        tail.Inline bytes (roundUp start s.size + s.size)
  | .pointer _ tail, start => tail.Inline bytes (roundUp start ptrSize + ptrSize)
  | @Record.nested _ inner _ head tail, start =>
      head.Inline bytes (roundUp start inner.align) ∧
        tail.Inline bytes (inner.writtenEnd (roundUp start inner.align))

/-- The same for the elements of a `Vec`. -/
def Elements.Inline (bytes : List UInt8) {fs : Fields} : Elements env fs → ℕ → Prop
  | .nil, _ => True
  | .cons head tail, start =>
      head.Inline bytes start ∧ tail.Inline bytes (fs.writtenEnd start)

mutual

/-- A record whose skeleton was written from the length `start` on, and whose bodies were written
from the length `data` on. -/
def Record.Stored (bytes : List UInt8) {fs : Fields} : Record env fs → ℕ → ℕ → Prop
  | .nil, _, _ => True
  | @Record.scalar _ s _ value tail, start, data =>
      slice bytes (roundUp start s.size) (roundUp start s.size + s.size) = some value.toList ∧
        tail.Stored bytes (roundUp start s.size + s.size) data
  | .pointer body tail, start, data =>
      slice bytes (roundUp start ptrSize) (roundUp start ptrSize + 4)
          = some (leBytes 4 (data - roundUp start ptrSize)) ∧
        body.Stored bytes data ∧
          tail.Stored bytes (roundUp start ptrSize + ptrSize) (body.bodyEnd data)
  | @Record.nested _ inner _ head tail, start, data =>
      head.Stored bytes (roundUp start inner.align) data ∧
        tail.Stored bytes (inner.writtenEnd (roundUp start inner.align)) (head.bodiesEnd data)

/-- A body that was written from the length `data` on. -/
def Body.Stored (bytes : List UInt8) {p : Pointer} : Body env p → ℕ → Prop
  | .string text, data =>
      slice bytes data (data + 4) = some (Writer.countBytes (toUtf8 text).length) ∧
        slice bytes (data + 4) (data + 4 + (toUtf8 text).length) = some (toUtf8 text)
  | @Body.vecScalar _ s elements, data =>
      slice bytes data (data + 4) = some (Writer.countBytes elements.length) ∧
        slice bytes (roundUp (data + 4) s.size)
          (roundUp (data + 4) s.size + elements.length * s.size)
            = some (elements.map Vector.toList).flatten
  | @Body.vecStruct _ i elements, data =>
      slice bytes data (data + 4) = some (Writer.countBytes elements.length) ∧
        elements.Stored bytes (roundUp (data + 4) (env i).align)
          (elements.skeletonsEnd (roundUp (data + 4) (env i).align))

/-- The elements of a `Vec`. -/
def Elements.Stored (bytes : List UInt8) {fs : Fields} : Elements env fs → ℕ → ℕ → Prop
  | .nil, _, _ => True
  | .cons head tail, start, data =>
      head.Stored bytes start data ∧
        tail.Stored bytes (fs.writtenEnd start) (head.bodiesEnd data)

end

/-! ## Frames -/

/-- Holes in front of a skeleton do not touch its scalars. -/
lemma Record.Inline.congr (hkeeps : Keeps 4 holes bytes bytes') :
    ∀ {fs : Fields} {r : Record env fs} {start : ℕ}, (∀ p ∈ holes, p + 4 ≤ start) →
      r.Inline bytes start → r.Inline bytes' start
  | _, .nil, _, _, _ => trivial
  | _, @Record.scalar _ s rest value tail, start, hout, h => by
      have hstart := le_roundUp start s.size
      refine ⟨hkeeps.slice h.1 fun p hp => ?_, congr hkeeps (fun p hp => ?_) h.2⟩
      all_goals
        have := hout p hp
        omega
  | _, .pointer _ tail, start, hout, h => by
      refine congr (r := tail) hkeeps (fun p hp => ?_) h
      have hstart := le_roundUp start ptrSize
      have := hout p hp
      omega
  | _, @Record.nested _ inner rest head tail, start, hout, h => by
      have hstart := le_roundUp start inner.align
      have hinner := inner.le_writtenEnd (roundUp start inner.align)
      refine ⟨congr hkeeps (fun p hp => ?_) h.1, congr hkeeps (fun p hp => ?_) h.2⟩
      all_goals
        have := hout p hp
        omega

lemma Elements.Inline.congr (hkeeps : Keeps 4 holes bytes bytes') :
    ∀ {fs : Fields} {es : Elements env fs} {start : ℕ}, (∀ p ∈ holes, p + 4 ≤ start) →
      es.Inline bytes start → es.Inline bytes' start
  | _, .nil, _, _, _ => trivial
  | fs, .cons head tail, start, hout, h => by
      have hnext := fs.le_writtenEnd start
      refine ⟨h.1.congr hkeeps hout, congr hkeeps (fun p hp => ?_) h.2⟩
      exact (hout p hp).trans hnext

mutual

lemma Record.le_bodiesEnd : ∀ {fs : Fields} (r : Record env fs) (data : ℕ),
    data ≤ r.bodiesEnd data
  | _, .nil, data => Nat.le_refl data
  | _, .scalar _ tail, data => Record.le_bodiesEnd tail data
  | _, .pointer body tail, data =>
      (Body.le_bodyEnd body data).trans (Record.le_bodiesEnd tail _)
  | _, .nested head tail, data =>
      (Record.le_bodiesEnd head data).trans (Record.le_bodiesEnd tail _)

lemma Body.le_bodyEnd : ∀ {p : Pointer} (b : Body env p) (data : ℕ), data ≤ b.bodyEnd data
  | _, .string text, data => by
      rw [Body.bodyEnd]
      omega
  | _, @Body.vecScalar _ s elements, data => by
      have hround := le_roundUp (data + 4) s.size
      rw [Body.bodyEnd]
      omega
  | _, @Body.vecStruct _ i elements, data => by
      have hround := le_roundUp (data + 4) (env i).align
      have hskeletons := elements.le_skeletonsEnd (roundUp (data + 4) (env i).align)
      have hbodies := Elements.le_bodiesEnd elements
        (elements.skeletonsEnd (roundUp (data + 4) (env i).align))
      rw [Body.bodyEnd]
      omega

lemma Elements.le_bodiesEnd : ∀ {fs : Fields} (es : Elements env fs) (data : ℕ),
    data ≤ es.bodiesEnd data
  | _, .nil, data => Nat.le_refl data
  | _, .cons head tail, data =>
      (Record.le_bodiesEnd head data).trans (Elements.le_bodiesEnd tail _)

end

/-- The holes touch neither a skeleton from `start` to `stop` nor the bodies from `data` on. -/
def Apart (holes : List ℕ) (start stop data : ℕ) : Prop :=
  ∀ p ∈ holes, (p + 4 ≤ start ∨ stop ≤ p) ∧ p + 4 ≤ data

lemma Apart.mono {start stop data start' stop' data' : ℕ} (h : Apart holes start stop data)
    (hstart : start ≤ start') (hstop : stop' ≤ stop) (hdata : data ≤ data') :
    Apart holes start' stop' data' := by
  intro p hp
  have := h p hp
  omega

mutual

/-- Holes apart from a value do not touch it. -/
lemma Record.stored_congr (hkeeps : Keeps 4 holes bytes bytes') :
    ∀ {fs : Fields} (r : Record env fs) {start data : ℕ},
      Apart holes start (fs.writtenEnd start) data → r.Stored bytes start data →
        r.Stored bytes' start data
  | _, .nil, _, _, _, _ => trivial
  | _, @Record.scalar _ s rest value tail, start, data, hout, h => by
      have hstart := le_roundUp start s.size
      have hend := rest.le_writtenEnd (roundUp start s.size + s.size)
      refine ⟨hkeeps.slice h.1 fun p hp => ?_, Record.stored_congr hkeeps tail ?_ h.2⟩
      · have := hout p hp
        rw [Fields.writtenEnd] at this
        omega
      · exact hout.mono (by omega) (Nat.le_refl _) (Nat.le_refl _)
  | _, @Record.pointer _ p rest body tail, start, data, hout, h => by
      have hstart := le_roundUp start ptrSize
      have hend := rest.le_writtenEnd (roundUp start ptrSize + ptrSize)
      obtain ⟨hptr, hbody, htail⟩ := h
      refine ⟨hkeeps.slice hptr fun p hp => ?_, Body.stored_congr hkeeps body ?_ hbody,
        Record.stored_congr hkeeps tail ?_ htail⟩
      · have := hout p hp
        have hsize : ptrSize = 4 := rfl
        rw [Fields.writtenEnd] at this
        omega
      · exact fun p hp => (hout p hp).2
      · exact hout.mono (by omega) (Nat.le_refl _) (body.le_bodyEnd data)
  | _, @Record.nested _ inner rest head tail, start, data, hout, h => by
      have hstart := le_roundUp start inner.align
      have hinner := inner.le_writtenEnd (roundUp start inner.align)
      have hend := rest.le_writtenEnd (inner.writtenEnd (roundUp start inner.align))
      refine ⟨Record.stored_congr hkeeps head ?_ h.1, Record.stored_congr hkeeps tail ?_ h.2⟩
      · exact hout.mono hstart hend (Nat.le_refl _)
      · exact hout.mono (hstart.trans hinner) (Nat.le_refl _) (head.le_bodiesEnd data)

lemma Body.stored_congr (hkeeps : Keeps 4 holes bytes bytes') :
    ∀ {p : Pointer} (b : Body env p) {data : ℕ}, (∀ p ∈ holes, p + 4 ≤ data) →
      b.Stored bytes data → b.Stored bytes' data
  | _, .string text, data, hout, h => by
      refine ⟨hkeeps.slice h.1 fun p hp => ?_, hkeeps.slice h.2 fun p hp => ?_⟩
      all_goals
        have := hout p hp
        omega
  | _, @Body.vecScalar _ s elements, data, hout, h => by
      have hround := le_roundUp (data + 4) s.size
      refine ⟨hkeeps.slice h.1 fun p hp => ?_, hkeeps.slice h.2 fun p hp => ?_⟩
      all_goals
        have := hout p hp
        omega
  | _, @Body.vecStruct _ i elements, data, hout, h => by
      have hround := le_roundUp (data + 4) (env i).align
      have hskeletons := elements.le_skeletonsEnd (roundUp (data + 4) (env i).align)
      refine ⟨hkeeps.slice h.1 fun p hp => ?_, Elements.stored_congr hkeeps elements ?_ h.2⟩
      · exact Or.inr (hout p hp)
      · intro p hp
        have := hout p hp
        omega

lemma Elements.stored_congr (hkeeps : Keeps 4 holes bytes bytes') :
    ∀ {fs : Fields} (es : Elements env fs) {start data : ℕ},
      Apart holes start (es.skeletonsEnd start) data → es.Stored bytes start data →
        es.Stored bytes' start data
  | _, .nil, _, _, _, _ => trivial
  | fs, .cons head tail, start, data, hout, h => by
      have hnext := fs.le_writtenEnd start
      have hend := tail.le_skeletonsEnd (fs.writtenEnd start)
      refine ⟨Record.stored_congr hkeeps head ?_ h.1, Elements.stored_congr hkeeps tail ?_ h.2⟩
      · exact hout.mono (Nat.le_refl _) hend (Nat.le_refl _)
      · exact hout.mono hnext (Nat.le_refl _) (head.le_bodiesEnd data)

end

/-! ## Single steps -/

namespace Writer

variable {w w' : Writer}

lemma keeps_write (bytes : List UInt8) : Keeps 4 holes w.bytes (w.write bytes).bytes :=
  Keeps.append _ _

lemma keeps_alignTo (align : ℕ) : Keeps 4 holes w.bytes (w.alignTo align).bytes := by
  rw [alignTo]
  split
  · exact keeps_write _
  · exact Keeps.refl _

lemma slice_write (bytes : List UInt8) :
    slice (w.write bytes).bytes w.bytes.length (w.bytes.length + bytes.length) = some bytes := by
  have h := slice_append w.bytes bytes []
  rwa [List.append_nil] at h

/-- A pointer is patched with the distance, and nothing else changes. -/
lemma patchPtr_keeps {fieldPos dataPos : ℕ} (hle : fieldPos ≤ dataPos)
    (h : w.patchPtr fieldPos dataPos = .ok w') :
    Keeps 4 [fieldPos] w.bytes w'.bytes ∧
      slice w'.bytes fieldPos (fieldPos + 4) = some (leBytes 4 (dataPos - fieldPos)) := by
  rw [patchPtr] at h
  split at h
  · next hpos =>
      cases h
      have hdistance : leBytes 4 (((dataPos : ℤ) - fieldPos) % 2 ^ 32).toNat
          = leBytes 4 (dataPos - fieldPos) := by
        rw [← leBytes_mod 4 (dataPos - fieldPos)]
        congr 1
        omega
      have hlen : (leBytes 4 (dataPos - fieldPos)).length = 4 := length_leBytes _ _
      have hin : fieldPos + (leBytes 4 (dataPos - fieldPos)).length ≤ w.bytes.length := by
        rwa [hlen]
      have hkeeps := Keeps.of_patch hin
      have hslice := slice_patch hin
      rw [patch, hlen] at hkeeps hslice
      rw [hdistance]
      exact ⟨hkeeps, hslice⟩
  · cases h

end Writer

/-! ## The skeleton phase -/

/-- A skeleton is put behind what is there, with its scalars. -/
lemma Record.writeSkeleton_inline : ∀ {fs : Fields} (r : Record env fs) (w : Writer),
    Keeps 4 [] w.bytes (r.writeSkeleton w).bytes ∧
      r.Inline (r.writeSkeleton w).bytes w.bytes.length
  | _, .nil, w => ⟨Keeps.refl _, trivial⟩
  | _, @Record.scalar _ s _ value tail, w => by
      have hstart : (w.alignTo s.size).bytes.length = roundUp w.bytes.length s.size :=
        Writer.length_alignTo s.isAlign_size.pos
      obtain ⟨hkeeps, hinline⟩ :=
        writeSkeleton_inline tail ((w.alignTo s.size).write value.toList)
      have hvalue : slice ((w.alignTo s.size).write value.toList).bytes _ _ = _ :=
        Writer.slice_write value.toList
      rw [hstart, Vector.length_toList] at hvalue
      rw [Writer.length_write, hstart, Vector.length_toList] at hinline
      refine ⟨?_, hkeeps.slice_of_nil hvalue, hinline⟩
      exact (Writer.keeps_alignTo s.size).grow ((Writer.keeps_write _).grow hkeeps)
  | _, .pointer _ tail, w => by
      have hstart : (w.alignTo ptrSize).bytes.length = roundUp w.bytes.length ptrSize :=
        Writer.length_alignTo isAlign_ptrSize.pos
      obtain ⟨hkeeps, hinline⟩ := writeSkeleton_inline tail (w.alignTo ptrSize).reservePtr
      rw [Writer.length_reservePtr, hstart] at hinline
      refine ⟨(Writer.keeps_alignTo ptrSize).grow (Keeps.grow ?_ hkeeps), hinline⟩
      exact Keeps.append _ _
  | _, @Record.nested _ inner _ head tail, w => by
      have hstart : (w.alignTo inner.align).bytes.length = roundUp w.bytes.length inner.align :=
        Writer.length_alignTo inner.align_pos
      obtain ⟨hkeeps, hinline⟩ := writeSkeleton_inline head (w.alignTo inner.align)
      obtain ⟨hkeeps', hinline'⟩ :=
        writeSkeleton_inline tail (head.writeSkeleton (w.alignTo inner.align))
      rw [hstart] at hinline
      rw [(head.writeSkeleton_spec _).1, hstart] at hinline'
      refine ⟨(Writer.keeps_alignTo inner.align).grow (hkeeps.grow hkeeps'), ?_, hinline'⟩
      exact hinline.congr hkeeps' (by simp)

lemma Elements.writeSkeletons_inline : ∀ {fs : Fields} (es : Elements env fs) (w : Writer),
    Keeps 4 [] w.bytes (es.writeSkeletons w).bytes ∧
      es.Inline (es.writeSkeletons w).bytes w.bytes.length
  | _, .nil, w => ⟨Keeps.refl _, trivial⟩
  | _, .cons head tail, w => by
      obtain ⟨hkeeps, hinline⟩ := head.writeSkeleton_inline w
      obtain ⟨hkeeps', hinline'⟩ := writeSkeletons_inline tail (head.writeSkeleton w)
      rw [(head.writeSkeleton_spec w).1] at hinline'
      exact ⟨hkeeps.grow hkeeps', hinline.congr hkeeps' (by simp), hinline'⟩

/-! ## The bodies phase -/

/-- The skeleton of a record was written from the length `start` on, its pointers are in front of
the queue, and nothing will be taken in the wrong place. -/
structure Record.Pending {fs : Fields} (r : Record env fs) (w : Writer) (start : ℕ)
    (waiting : List ℕ) : Prop where
  queue : w.positions = fs.placeholders start ++ waiting
  inside : ∀ pos ∈ w.positions, pos + 4 ≤ w.bytes.length
  behind : fs.writtenEnd start ≤ w.bytes.length
  safe : r.QueueSafe waiting.length
  inline_stored : r.Inline w.bytes start

/-- The same for the elements of a `Vec`. -/
structure Elements.Pending {fs : Fields} (es : Elements env fs) (w : Writer) (start : ℕ)
    (waiting : List ℕ) : Prop where
  queue : w.positions = es.placeholders start ++ waiting
  inside : ∀ pos ∈ w.positions, pos + 4 ≤ w.bytes.length
  behind : es.skeletonsEnd start ≤ w.bytes.length
  safe : es.QueueSafe waiting.length
  inline_stored : es.Inline w.bytes start

lemma Record.Pending.ready {fs : Fields} {r : Record env fs} {w : Writer} {start : ℕ}
    {waiting : List ℕ} (h : r.Pending w start waiting) : w.Ready fs.pointers := by
  refine ⟨?_, h.inside⟩
  rw [h.queue, List.length_append, Fields.length_placeholders]
  exact Nat.le_add_right _ _

lemma Elements.Pending.ready {fs : Fields} {es : Elements env fs} {w : Writer} {start : ℕ}
    {waiting : List ℕ} (h : es.Pending w start waiting) :
    w.Ready (es.length * fs.pointers) := by
  refine ⟨?_, h.inside⟩
  rw [h.queue, List.length_append, Elements.length_placeholders]
  exact Nat.le_add_right _ _

/-- The placeholders of a skeleton are apart from what stands in front of it. -/
lemma Fields.apart_placeholders (fs : Fields) {start front mid data : ℕ} (hmid : mid ≤ start)
    (hdata : fs.writtenEnd start ≤ data) : Apart (fs.placeholders start) front mid data := by
  intro p hp
  have := fs.placeholder_le hp
  omega

lemma Elements.apart_placeholders {fs : Fields} (es : Elements env fs) {start front mid data : ℕ}
    (hmid : mid ≤ start) (hdata : es.skeletonsEnd start ≤ data) :
    Apart (es.placeholders start) front mid data := by
  intro p hp
  have := es.placeholder_le hp
  omega

lemma length_flatten_elements {s : Scalar} (elements : List (Vector UInt8 s.size)) :
    (elements.map Vector.toList).flatten.length = elements.length * s.size := by
  rw [List.length_flatten, List.map_map]
  simp [Function.comp_def, List.map_const', List.sum_replicate_nat]

mutual

/-- The bodies phase leaves a record stored, and overwrites its own pointers only. -/
lemma Record.writeBodies_stored : ∀ {fs : Fields} (r : Record env fs) {waiting : List ℕ}
    {w w' : Writer} {start : ℕ}, r.Pending w start waiting → r.writeBodies w = .ok w' →
      Keeps 4 (fs.placeholders start) w.bytes w'.bytes ∧ r.Stored w'.bytes start w.bytes.length
  | _, .nil, _, _, _, _, _, hw' => by
      cases hw'
      exact ⟨Keeps.refl _, trivial⟩
  | _, @Record.scalar _ s rest value tail, waiting, w, w', start, h, hw' => by
      obtain ⟨hvalue, hinline⟩ := h.inline_stored
      obtain ⟨hkeeps, hstored⟩ := Record.writeBodies_stored tail
        ⟨h.queue, h.inside, h.behind, h.safe, hinline⟩ hw'
      refine ⟨hkeeps, hkeeps.slice hvalue fun p hp => ?_, hstored⟩
      exact Or.inl (rest.placeholder_le hp).1
  | _, @Record.pointer _ p rest body tail, waiting, w, w', start, h, hw' => by
      obtain ⟨fieldPos, w₀, hpop, hbytes, hqueue, hpos, hready⟩ := h.ready.pop p.missing
      obtain ⟨hfield, hrest⟩ := List.cons_eq_cons.mp (hqueue.symm.trans h.queue)
      change w₀.positions = rest.placeholders (roundUp start ptrSize + ptrSize) ++ waiting at hrest
      have hsize : ptrSize = 4 := rfl
      have hend := rest.le_writtenEnd (roundUp start ptrSize + ptrSize)
      have hbehind : rest.writtenEnd (roundUp start ptrSize + ptrSize) ≤ w.bytes.length := h.behind
      obtain ⟨hsafe, hsafe'⟩ := h.safe
      rw [Record.writeBodies, hpop, ok_bind] at hw'
      obtain ⟨w₁, hbody, hw'⟩ := bind_eq_ok.mp hw'
      obtain ⟨w₁', hok, hsteps⟩ := body.writeAt_spec fieldPos w₀ hpos
        ⟨Nat.zero_le _, hready.inside⟩
      obtain rfl : w₁ = w₁' := by
        rw [hbody] at hok
        exact Outcome.ok.inj hok
      have hspec := body.queueSpec fieldPos w₀ hpos ⟨Nat.zero_le _, hready.inside⟩
      rw [hrest, List.length_append, Fields.length_placeholders] at hspec
      obtain ⟨hkeeps, hslice, hstored⟩ := Body.writeAt_stored body hpos
        ⟨Nat.zero_le _, hready.inside⟩
        (by rwa [hrest, List.length_append, Fields.length_placeholders]) hbody
      rw [hbytes] at hkeeps hslice hstored
      have hgrow := hkeeps.grows
      obtain ⟨hkeeps', hstored'⟩ := Record.writeBodies_stored tail
        ⟨hspec.rest hsafe w₁ hbody, hsteps.inside, by omega, hsafe',
          h.inline_stored.congr hkeeps (by simp [hfield, hsize])⟩ hw'
      rw [hsteps.length_eq, hbytes] at hstored'
      rw [hfield] at hslice hkeeps
      refine ⟨hkeeps.trans hkeeps', hkeeps'.slice hslice fun p hp => ?_,
        body.stored_congr hkeeps' (fun p hp => ?_) hstored, hstored'⟩
      · have := (rest.placeholder_le hp).1
        omega
      · exact (rest.placeholder_le hp).2.trans hbehind
  | _, @Record.nested _ inner rest head tail, waiting, w, w', start, h, hw' => by
      have hend := rest.le_writtenEnd (inner.writtenEnd (roundUp start inner.align))
      have hbehind : rest.writtenEnd (inner.writtenEnd (roundUp start inner.align))
          ≤ w.bytes.length := h.behind
      obtain ⟨hinline, hinline'⟩ := h.inline_stored
      obtain ⟨hsafe, hsafe'⟩ := h.safe
      have hpending : head.Pending w (roundUp start inner.align)
          (rest.placeholders (inner.writtenEnd (roundUp start inner.align)) ++ waiting) :=
        ⟨h.queue.trans (List.append_assoc _ _ _), h.inside, hend.trans hbehind,
          by rwa [List.length_append, Fields.length_placeholders], hinline⟩
      rw [Record.writeBodies] at hw'
      obtain ⟨w₁, hhead, hw'⟩ := bind_eq_ok.mp hw'
      obtain ⟨w₁', hok, hsteps⟩ := head.writeBodies_spec w hpending.ready
      obtain rfl : w₁ = w₁' := Outcome.ok.inj (hhead.symm.trans hok)
      have hrest := (head.queueSpec _ _ w hpending.queue (inner.length_placeholders _)
        hpending.ready).rest hpending.safe w₁ hhead
      obtain ⟨hkeeps, hstored⟩ := Record.writeBodies_stored head hpending hhead
      have hgrow := hkeeps.grows
      obtain ⟨hkeeps', hstored'⟩ := Record.writeBodies_stored tail
        ⟨hrest, hsteps.inside, hbehind.trans hgrow, hsafe',
          hinline'.congr hkeeps fun p hp => (inner.placeholder_le hp).2⟩ hw'
      rw [hsteps.length_eq] at hstored'
      refine ⟨hkeeps.trans hkeeps', head.stored_congr hkeeps' ?_ hstored, hstored'⟩
      exact rest.apart_placeholders (Nat.le_refl _) hbehind

lemma Body.writeAt_stored : ∀ {p : Pointer} (b : Body env p) {fieldPos : ℕ} {w w' : Writer},
    fieldPos + 4 ≤ w.bytes.length → w.Ready 0 → b.QueueSafe w.positions.length →
      b.writeAt fieldPos w = .ok w' →
        Keeps 4 [fieldPos] w.bytes w'.bytes ∧
          slice w'.bytes fieldPos (fieldPos + 4)
            = some (leBytes 4 (w.bytes.length - fieldPos)) ∧
          b.Stored w'.bytes w.bytes.length
  | _, .string text, fieldPos, w, w', hpos, h, hsafe, hw' => by
      rw [Body.writeAt, Writer.writeStringAt] at hw'
      obtain ⟨hkeeps, hslice⟩ := Writer.patchPtr_keeps (by omega) hw'
      have hcount := Writer.slice_write (w := w) (Writer.countBytes (toUtf8 text).length)
      have htext := Writer.slice_write
        (w := w.write (Writer.countBytes (toUtf8 text).length)) (toUtf8 text)
      rw [Writer.length_countBytes] at hcount
      rw [Writer.length_write, Writer.length_countBytes] at htext
      have hout : ∀ p ∈ [fieldPos], p + 4 ≤ w.bytes.length := by simpa using hpos
      refine ⟨?_, hslice, ?_, hkeeps.slice htext fun p hp => ?_⟩
      · exact (Writer.keeps_write _).grow ((Writer.keeps_write _).grow hkeeps)
      · refine hkeeps.slice ((Writer.keeps_write _).slice_of_nil hcount) ?_
        exact fun p hp => Or.inr (hout p hp)
      · have := hout p hp
        omega
  | _, @Body.vecScalar _ s elements, fieldPos, w, w', hpos, h, hsafe, hw' => by
      rw [Body.writeAt, Writer.writeVecAt, List.length_map] at hw'
      obtain ⟨hkeeps, hslice⟩ := Writer.patchPtr_keeps (by omega) hw'
      have hround := le_roundUp (w.bytes.length + 4) s.size
      have hcount := Writer.slice_write (w := w) (Writer.countBytes elements.length)
      rw [Writer.length_countBytes] at hcount
      have hout : ∀ p ∈ [fieldPos], p + 4 ≤ w.bytes.length := by simpa using hpos
      generalize hpad : List.replicate (roundUp (w.bytes.length + 4) s.size
        - (w.write (Writer.countBytes elements.length)).bytes.length) (0 : UInt8) = padding
        at hkeeps hslice
      have hlen : ((w.write (Writer.countBytes elements.length)).write padding).bytes.length
          = roundUp (w.bytes.length + 4) s.size := by
        rw [← hpad, Writer.length_write, Writer.length_write, List.length_replicate,
          Writer.length_countBytes]
        omega
      have helements := Writer.slice_write
        (w := (w.write (Writer.countBytes elements.length)).write padding)
        (elements.map Vector.toList).flatten
      rw [hlen, length_flatten_elements] at helements
      refine ⟨?_, hslice, ?_, hkeeps.slice helements fun p hp => ?_⟩
      · exact (Writer.keeps_write _).grow
          ((Writer.keeps_write _).grow ((Writer.keeps_write _).grow hkeeps))
      · refine hkeeps.slice ((Writer.keeps_write _).slice_of_nil
          ((Writer.keeps_write _).slice_of_nil hcount)) ?_
        exact fun p hp => Or.inr (hout p hp)
      · have := hout p hp
        omega
  | _, @Body.vecStruct _ i elements, fieldPos, w, w', hpos, h, hsafe, hw' => by
      have hbegin := h.beginVec elements.length (env i).align_pos
      have hround := le_roundUp (w.bytes.length + 4) (env i).align
      have hcount := Writer.slice_write (w := w) (Writer.countBytes elements.length)
      rw [Writer.length_countBytes] at hcount
      have hlen := Writer.length_beginVec elements.length (env i).align_pos w
      obtain ⟨hstop, hqueue⟩ := elements.writeSkeletons_spec
        (w.beginVec elements.length (env i).align)
      obtain ⟨hskeletons, hinline⟩ := elements.writeSkeletons_inline
        (w.beginVec elements.length (env i).align)
      have hinside := (elements.ready hbegin).inside
      rw [Writer.positions_beginVec, hlen] at hqueue
      rw [hlen] at hstop hinline
      have hkeeps₁ : Keeps 4 [] (w.write (Writer.countBytes elements.length)).bytes _ :=
        (Writer.keeps_alignTo (env i).align).grow hskeletons
      rw [Body.writeAt, ← Writer.beginVec] at hw'
      generalize elements.writeSkeletons (w.beginVec elements.length (env i).align) = w₁
        at hstop hqueue hinline hinside hkeeps₁ hw'
      obtain ⟨w₂, hbodies, hpatch⟩ := bind_eq_ok.mp hw'
      obtain ⟨waiting, hwaiting, hsafe⟩ : ∃ waiting,
          w₁.positions = elements.placeholders (roundUp (w.bytes.length + 4) (env i).align)
            ++ waiting ∧ elements.QueueSafe waiting.length := by
        by_cases hnone : elements.length * (env i).pointers = 0
        · -- the elements have no pointers, so that those that wait do not matter
          refine ⟨w.positions, ?_, elements.safe_of_no_pointers _ hnone⟩
          have hown := elements.length_placeholders (roundUp (w.bytes.length + 4) (env i).align)
          rw [hnone, List.length_eq_zero_iff] at hown
          rw [hqueue, hown, List.append_nil, List.nil_append]
        · obtain ⟨hempty, hsafe⟩ := hsafe hnone
          refine ⟨[], ?_, hsafe⟩
          rw [hqueue, List.eq_nil_of_length_eq_zero hempty, List.nil_append, List.append_nil]
      obtain ⟨hkeeps₂, hstored⟩ := Elements.writeBodies_stored elements
        ⟨hwaiting, hinside, hstop.ge, hsafe, hinline⟩ hbodies
      have hlen₁ := hkeeps₁.grows
      rw [Writer.length_write, Writer.length_countBytes] at hlen₁
      have hlen₂ := hkeeps₂.grows
      obtain ⟨hkeeps₃, hslice⟩ := Writer.patchPtr_keeps (by omega) hpatch
      have hout : ∀ p ∈ [fieldPos], p + 4 ≤ w.bytes.length := by simpa using hpos
      have hfresh : ∀ p ∈ elements.placeholders (roundUp (w.bytes.length + 4) (env i).align),
          w.bytes.length + 4 ≤ p := fun p hp =>
        hround.trans (elements.placeholder_le hp).1
      refine ⟨?_, hslice, ?_, ?_⟩
      · have hall := ((Writer.keeps_write _).grow hkeeps₁).grow (hkeeps₂.trans hkeeps₃)
        refine (hall.mono ?_).of_fresh fun p hp => (Nat.le_add_right _ 4).trans (hfresh p hp)
        exact (List.perm_append_comm).subset
      · refine hkeeps₃.slice (hkeeps₂.slice (hkeeps₁.slice_of_nil hcount) ?_) ?_
        · exact fun p hp => Or.inl (hfresh p hp)
        · exact fun p hp => Or.inr (hout p hp)
      · rw [hstop] at hstored
        refine elements.stored_congr hkeeps₃ (fun p hp => ?_) hstored
        have := hout p hp
        have := elements.le_skeletonsEnd (roundUp (w.bytes.length + 4) (env i).align)
        omega

lemma Elements.writeBodies_stored : ∀ {fs : Fields} (es : Elements env fs) {waiting : List ℕ}
    {w w' : Writer} {start : ℕ}, es.Pending w start waiting → es.writeBodies w = .ok w' →
      Keeps 4 (es.placeholders start) w.bytes w'.bytes ∧
        es.Stored w'.bytes start w.bytes.length
  | _, .nil, _, _, _, _, _, hw' => by
      cases hw'
      exact ⟨Keeps.refl _, trivial⟩
  | fs, .cons head tail, waiting, w, w', start, h, hw' => by
      have hend := tail.le_skeletonsEnd (fs.writtenEnd start)
      have hbehind : tail.skeletonsEnd (fs.writtenEnd start) ≤ w.bytes.length := h.behind
      obtain ⟨hinline, hinline'⟩ := h.inline_stored
      obtain ⟨hsafe, hsafe'⟩ := h.safe
      have hpending : head.Pending w start (tail.placeholders (fs.writtenEnd start) ++ waiting) :=
        ⟨h.queue.trans (List.append_assoc _ _ _), h.inside, hend.trans hbehind,
          by rwa [List.length_append, Elements.length_placeholders], hinline⟩
      rw [Elements.writeBodies] at hw'
      obtain ⟨w₁, hhead, hw'⟩ := bind_eq_ok.mp hw'
      obtain ⟨w₁', hok, hsteps⟩ := head.writeBodies_spec w hpending.ready
      obtain rfl : w₁ = w₁' := Outcome.ok.inj (hhead.symm.trans hok)
      have hrest := (head.queueSpec _ _ w hpending.queue (fs.length_placeholders _)
        hpending.ready).rest hpending.safe w₁ hhead
      obtain ⟨hkeeps, hstored⟩ := Record.writeBodies_stored head hpending hhead
      have hgrow := hkeeps.grows
      obtain ⟨hkeeps', hstored'⟩ := Elements.writeBodies_stored tail
        ⟨hrest, hsteps.inside, hbehind.trans hgrow, hsafe',
          hinline'.congr hkeeps fun p hp => (fs.placeholder_le hp).2⟩ hw'
      rw [hsteps.length_eq] at hstored'
      refine ⟨hkeeps.trans hkeeps', head.stored_congr hkeeps' ?_ hstored, hstored'⟩
      exact tail.apart_placeholders (Nat.le_refl _) hbehind

end

end RustBinary.Archive
