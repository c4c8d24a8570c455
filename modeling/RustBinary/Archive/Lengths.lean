import RustBinary.Archive.Writer

/-!
# How far the writer gets

The buffer lengths of both phases depend on the value alone, not on the queue: `writtenEnd` is
where a skeleton ends, and `bodiesEnd` where the bodies end.  With a queue that holds the
positions of all pointers the bodies phase succeeds, and it takes as many positions out of the
queue as it puts in (`Record.writeBodies_spec`).
-/

namespace RustBinary.Archive

open Lib Lib.Outcome

/-! ## Single steps -/

namespace Writer

variable {w : Writer}

@[simp] lemma length_write (bytes : List UInt8) :
    (w.write bytes).bytes.length = w.bytes.length + bytes.length := by
  simp [write]

@[simp] lemma positions_write (bytes : List UInt8) : (w.write bytes).positions = w.positions := rfl

lemma length_alignTo {a : ℕ} (ha : 0 < a) :
    (w.alignTo a).bytes.length = roundUp w.bytes.length a := by
  rw [alignTo, roundUp]
  have hlt := Nat.mod_lt w.bytes.length ha
  split
  · next h =>
      rw [length_write, List.length_replicate, Nat.mod_eq_of_lt (a := a - _) (by omega)]
  · next h => simp [not_not.mp h]

@[simp] lemma positions_alignTo (a : ℕ) : (w.alignTo a).positions = w.positions := by
  rw [alignTo]
  split <;> rfl

@[simp] lemma length_reservePtr : w.reservePtr.bytes.length = w.bytes.length + ptrSize := by
  simp [reservePtr, ptrSize]

@[simp] lemma positions_reservePtr :
    w.reservePtr.positions = w.positions ++ [w.bytes.length] := rfl

@[simp] lemma length_countBytes (count : ℕ) : (countBytes count).length = 4 := by
  simp [countBytes]

/-- A pointer in the buffer is patched, and nothing else changes. -/
lemma patchPtr_spec {fieldPos : ℕ} (dataPos : ℕ) (h : fieldPos + 4 ≤ w.bytes.length) :
    ∃ w', w.patchPtr fieldPos dataPos = .ok w' ∧ w'.bytes.length = w.bytes.length ∧
      w'.positions = w.positions := by
  refine ⟨_, if_pos h, ?_, rfl⟩
  simp only [List.length_append, List.length_take, List.length_drop, length_leBytes]
  omega

end Writer

/-! ## Ends -/

/-- Where a skeleton ends that is written from the length `start` on. -/
def Fields.writtenEnd : Fields → ℕ → ℕ
  | nil, start => start
  | scalar s rest, start => rest.writtenEnd (roundUp start s.size + s.size)
  | pointer _ rest, start => rest.writtenEnd (roundUp start ptrSize + ptrSize)
  | nested inner rest, start => rest.writtenEnd (inner.writtenEnd (roundUp start inner.align))

/-- The positions of the pointers in a skeleton that is written from the length `start` on. -/
def Fields.placeholders : Fields → ℕ → List ℕ
  | nil, _ => []
  | scalar s rest, start => rest.placeholders (roundUp start s.size + s.size)
  | pointer _ rest, start =>
      roundUp start ptrSize :: rest.placeholders (roundUp start ptrSize + ptrSize)
  | nested inner rest, start =>
      inner.placeholders (roundUp start inner.align) ++
        rest.placeholders (inner.writtenEnd (roundUp start inner.align))

@[simp] lemma Fields.length_placeholders (fs : Fields) (start : ℕ) :
    (fs.placeholders start).length = fs.pointers := by
  induction fs generalizing start with
  | nil => rfl
  | scalar s rest ih => exact ih _
  | pointer p rest ih => simp [placeholders, pointers, ih]
  | nested inner rest ihi ih => simp [placeholders, pointers, ihi, ih]

lemma Fields.le_writtenEnd (fs : Fields) (start : ℕ) : start ≤ fs.writtenEnd start := by
  induction fs generalizing start with
  | nil => exact Nat.le_refl start
  | scalar s rest ih =>
      exact (le_roundUp start s.size).trans ((Nat.le_add_right _ _).trans (ih _))
  | pointer p rest ih =>
      exact (le_roundUp start ptrSize).trans ((Nat.le_add_right _ _).trans (ih _))
  | nested inner rest ihi ih =>
      exact (le_roundUp start inner.align).trans ((ihi _).trans (ih _))

/-- A placeholder lies in the skeleton. -/
lemma Fields.placeholder_le (fs : Fields) {start pos : ℕ} (h : pos ∈ fs.placeholders start) :
    start ≤ pos ∧ pos + 4 ≤ fs.writtenEnd start := by
  induction fs generalizing start with
  | nil => simp [placeholders] at h
  | scalar s rest ih =>
      have hstart := le_roundUp start s.size
      obtain ⟨hlow, hhigh⟩ := ih h
      exact ⟨by omega, hhigh⟩
  | pointer p rest ih =>
      have hstart := le_roundUp start ptrSize
      rcases List.mem_cons.mp h with rfl | hrest
      · exact ⟨hstart, rest.le_writtenEnd _⟩
      · obtain ⟨hlow, hhigh⟩ := ih hrest
        exact ⟨by omega, hhigh⟩
  | nested inner rest ihi ih =>
      have hstart := le_roundUp start inner.align
      have hinner := inner.le_writtenEnd (roundUp start inner.align)
      rcases List.mem_append.mp h with hin | hrest
      · obtain ⟨hlow, hhigh⟩ := ihi hin
        exact ⟨by omega, hhigh.trans (rest.le_writtenEnd _)⟩
      · obtain ⟨hlow, hhigh⟩ := ih hrest
        exact ⟨by omega, hhigh⟩

variable {env : ℕ → Fields} {fs : Fields}

/-- Where the skeletons of the elements end. -/
def Elements.skeletonsEnd : Elements env fs → ℕ → ℕ
  | .nil, start => start
  | .cons _ tail, start => tail.skeletonsEnd (fs.writtenEnd start)

/-- The positions of the pointers of the elements. -/
def Elements.placeholders : Elements env fs → ℕ → List ℕ
  | .nil, _ => []
  | .cons _ tail, start => fs.placeholders start ++ tail.placeholders (fs.writtenEnd start)

mutual

/-- Where the bodies end that are written from the length `start` on. -/
def Record.bodiesEnd {fs : Fields} : Record env fs → ℕ → ℕ
  | .nil, start => start
  | .scalar _ tail, start => tail.bodiesEnd start
  | .pointer body tail, start => tail.bodiesEnd (body.bodyEnd start)
  | .nested head tail, start => tail.bodiesEnd (head.bodiesEnd start)

/-- Where a body ends. -/
def Body.bodyEnd {p : Pointer} : Body env p → ℕ → ℕ
  | .string text, start => start + 4 + (toUtf8 text).length
  | @Body.vecScalar _ s elements, start => roundUp (start + 4) s.size + elements.length * s.size
  | @Body.vecStruct _ i elements, start =>
      elements.bodiesEnd (elements.skeletonsEnd (roundUp (start + 4) (env i).align))

/-- Where the bodies of the elements end. -/
def Elements.bodiesEnd {fs : Fields} : Elements env fs → ℕ → ℕ
  | .nil, start => start
  | .cons head tail, start => tail.bodiesEnd (head.bodiesEnd start)

end

/-! ## The skeleton phase -/

/-- The length and the queue behind a skeleton. -/
lemma Record.writeSkeleton_spec : ∀ {fs : Fields} (r : Record env fs) (w : Writer),
    (r.writeSkeleton w).bytes.length = fs.writtenEnd w.bytes.length ∧
      (r.writeSkeleton w).positions = w.positions ++ fs.placeholders w.bytes.length
  | _, .nil, w => by simp [writeSkeleton, Fields.writtenEnd, Fields.placeholders]
  | _, @Record.scalar _ s _ bytes tail, w => by
      have hstart : ((w.alignTo s.size).write bytes.toList).bytes.length
          = roundUp w.bytes.length s.size + s.size := by
        rw [Writer.length_write, Writer.length_alignTo s.isAlign_size.pos, Vector.length_toList]
      have htail := writeSkeleton_spec tail ((w.alignTo s.size).write bytes.toList)
      rw [hstart, Writer.positions_write, Writer.positions_alignTo] at htail
      exact htail
  | _, .pointer _ tail, w => by
      have hstart : (w.alignTo ptrSize).bytes.length = roundUp w.bytes.length ptrSize :=
        Writer.length_alignTo isAlign_ptrSize.pos
      have htail := writeSkeleton_spec tail (w.alignTo ptrSize).reservePtr
      rw [Writer.length_reservePtr, Writer.positions_reservePtr, hstart,
        Writer.positions_alignTo, List.append_assoc] at htail
      exact htail
  | _, @Record.nested _ inner _ head tail, w => by
      have hstart : (w.alignTo inner.align).bytes.length = roundUp w.bytes.length inner.align :=
        Writer.length_alignTo inner.align_pos
      obtain ⟨hlen, hpos⟩ := writeSkeleton_spec head (w.alignTo inner.align)
      have htail := writeSkeleton_spec tail (head.writeSkeleton (w.alignTo inner.align))
      rw [hlen, hpos, hstart, Writer.positions_alignTo, List.append_assoc] at htail
      exact htail

lemma Elements.writeSkeletons_spec : ∀ {fs : Fields} (es : Elements env fs) (w : Writer),
    (es.writeSkeletons w).bytes.length = es.skeletonsEnd w.bytes.length ∧
      (es.writeSkeletons w).positions = w.positions ++ es.placeholders w.bytes.length
  | _, .nil, w => by simp [writeSkeletons, skeletonsEnd, placeholders]
  | _, .cons head tail, w => by
      obtain ⟨hlen, hpos⟩ := head.writeSkeleton_spec w
      have htail := writeSkeletons_spec tail (head.writeSkeleton w)
      rw [hlen, hpos, List.append_assoc] at htail
      exact htail

@[simp] lemma Elements.length_placeholders : ∀ {fs : Fields} (es : Elements env fs) (start : ℕ),
    (es.placeholders start).length = es.length * fs.pointers
  | _, .nil, _ => by simp [placeholders, length]
  | fs, .cons _ tail, start => by
      rw [placeholders, List.length_append, Fields.length_placeholders, length_placeholders tail,
        length]
      ring

lemma Elements.le_skeletonsEnd : ∀ {fs : Fields} (es : Elements env fs) (start : ℕ),
    start ≤ es.skeletonsEnd start
  | _, .nil, start => Nat.le_refl start
  | fs, .cons _ tail, start => (fs.le_writtenEnd start).trans (le_skeletonsEnd tail _)

lemma Elements.placeholder_le : ∀ {fs : Fields} (es : Elements env fs) {start pos : ℕ},
    pos ∈ es.placeholders start → start ≤ pos ∧ pos + 4 ≤ es.skeletonsEnd start
  | _, .nil, _, _, h => by simp [placeholders] at h
  | fs, .cons _ tail, start, pos, h => by
      rcases List.mem_append.mp h with hhead | htail
      · obtain ⟨hlow, hhigh⟩ := fs.placeholder_le hhead
        exact ⟨hlow, hhigh.trans (tail.le_skeletonsEnd _)⟩
      · obtain ⟨hlow, hhigh⟩ := placeholder_le tail htail
        exact ⟨(fs.le_writtenEnd start).trans hlow, hhigh⟩

/-! ## The bodies phase -/

/-- The queue holds at least `n` positions, all of them of pointers in the buffer. -/
structure Writer.Ready (w : Writer) (n : ℕ) : Prop where
  enough : n ≤ w.positions.length
  inside : ∀ pos ∈ w.positions, pos + 4 ≤ w.bytes.length

/-- The step from `w` to `w'` ends at the length `stop` and takes `n` positions, net. -/
structure Writer.Steps (w w' : Writer) (stop n : ℕ) : Prop where
  length_eq : w'.bytes.length = stop
  taken : w'.positions.length + n = w.positions.length
  inside : ∀ pos ∈ w'.positions, pos + 4 ≤ w'.bytes.length
  grows : w.bytes.length ≤ w'.bytes.length

lemma Writer.Ready.next {w w' : Writer} {stop n m : ℕ} (h : w.Ready (n + m))
    (hs : w.Steps w' stop n) : w'.Ready m where
  enough := by
    have h₁ := h.enough
    have h₂ := hs.taken
    omega
  inside := hs.inside

lemma Writer.Steps.trans {w w' w'' : Writer} {stop stop' n m : ℕ} (h : w.Steps w' stop n)
    (h' : w'.Steps w'' stop' m) : w.Steps w'' stop' (n + m) where
  length_eq := h'.length_eq
  taken := by
    have h₁ := h.taken
    have h₂ := h'.taken
    omega
  inside := h'.inside
  grows := h.grows.trans h'.grows

/-- A queue that is not empty gives a position. -/
lemma Writer.Ready.pop {w : Writer} {n : ℕ} (h : w.Ready (n + 1)) (e : String) :
    ∃ fieldPos w', w.popFront e = .ok (fieldPos, w') ∧ w'.bytes = w.bytes ∧
      w.positions = fieldPos :: w'.positions ∧ fieldPos + 4 ≤ w'.bytes.length ∧ w'.Ready n := by
  obtain ⟨fieldPos, positions, hqueue⟩ := List.exists_cons_of_length_pos
    (Nat.lt_of_lt_of_le (Nat.succ_pos _) h.enough)
  have hinside := h.inside
  have henough := h.enough
  rw [hqueue, List.forall_mem_cons] at hinside
  rw [hqueue, List.length_cons, Nat.add_le_add_iff_right] at henough
  refine ⟨fieldPos, ⟨w.bytes, positions⟩, ?_, rfl, hqueue, hinside.1, henough, hinside.2⟩
  rw [Writer.popFront, hqueue]

lemma Writer.Steps.of_pop {w w' w'' : Writer} {fieldPos stop : ℕ} (hbytes : w'.bytes = w.bytes)
    (hqueue : w.positions = fieldPos :: w'.positions) (h : w'.Steps w'' stop 0) :
    w.Steps w'' stop 1 where
  length_eq := h.length_eq
  taken := by
    have htaken := h.taken
    rw [hqueue, List.length_cons]
    omega
  inside := h.inside
  grows := hbytes ▸ h.grows

/-- Bytes and a patch at the end of a body. -/
lemma Writer.patchPtr_steps {w w' : Writer} {fieldPos : ℕ} (dataPos : ℕ)
    (hpos : fieldPos + 4 ≤ w.bytes.length) (hlen : w.bytes.length ≤ w'.bytes.length)
    (hqueue : w'.positions.length = w.positions.length)
    (hinside : ∀ pos ∈ w'.positions, pos + 4 ≤ w'.bytes.length) :
    ∃ w'', w'.patchPtr fieldPos dataPos = .ok w'' ∧ w.Steps w'' w'.bytes.length 0 := by
  obtain ⟨w'', hpatch, hlength, hpositions⟩ := Writer.patchPtr_spec dataPos (hpos.trans hlen)
  refine ⟨w'', hpatch, hlength, ?_, ?_, ?_⟩
  · rw [hpositions, hqueue, Nat.add_zero]
  · rw [hpositions, hlength]
    exact hinside
  · rw [hlength]
    exact hlen

/-- The writer behind the count of a `Vec` of structs. -/
def Writer.beginVec (count align : ℕ) (w : Writer) : Writer :=
  (w.write (Writer.countBytes count)).alignTo align

@[simp] lemma Writer.positions_beginVec (count align : ℕ) (w : Writer) :
    (w.beginVec count align).positions = w.positions := by
  rw [beginVec, positions_alignTo, positions_write]

lemma Writer.length_beginVec (count : ℕ) {align : ℕ} (halign : 0 < align) (w : Writer) :
    (w.beginVec count align).bytes.length = roundUp (w.bytes.length + 4) align := by
  rw [beginVec, length_alignTo halign, length_write, length_countBytes]

/-- Behind the skeletons of the elements the queue has the positions of their pointers. -/
lemma Elements.ready (es : Elements env fs) {w : Writer} (h : w.Ready 0) :
    (es.writeSkeletons w).Ready (es.length * fs.pointers) := by
  obtain ⟨hlen, hpos⟩ := es.writeSkeletons_spec w
  refine ⟨by simp [hpos], fun pos hmem => ?_⟩
  have hgrow := es.le_skeletonsEnd w.bytes.length
  rw [hpos] at hmem
  rw [hlen]
  rcases List.mem_append.mp hmem with hold | hnew
  · have := h.inside pos hold
    omega
  · exact (es.placeholder_le hnew).2

lemma Elements.length_cons_mul (head : Record env fs) (tail : Elements env fs) :
    (Elements.cons head tail).length * fs.pointers
      = fs.pointers + tail.length * fs.pointers := by
  rw [length]
  ring

lemma Writer.Ready.beginVec {w : Writer} (h : w.Ready 0) (count : ℕ) {align : ℕ}
    (halign : 0 < align) : (w.beginVec count align).Ready 0 := by
  refine ⟨Nat.zero_le _, fun pos hmem => ?_⟩
  rw [positions_beginVec] at hmem
  have hold := h.inside pos hmem
  have hround := le_roundUp (w.bytes.length + 4) align
  rw [length_beginVec count halign]
  omega

mutual

/-- The bodies phase succeeds on a queue with the positions of the pointers. -/
lemma Record.writeBodies_spec : ∀ {fs : Fields} (r : Record env fs) (w : Writer),
    w.Ready fs.pointers →
      ∃ w', r.writeBodies w = .ok w' ∧ w.Steps w' (r.bodiesEnd w.bytes.length) fs.pointers
  | _, .nil, w, h => by
      exact ⟨w, rfl, rfl, rfl, h.inside, Nat.le_refl _⟩
  | _, .scalar _ tail, w, h => Record.writeBodies_spec tail w h
  | _, @Record.pointer _ p rest body tail, w, h => by
      obtain ⟨fieldPos, w₀, hpop, hbytes, hqueue, hpos, hready⟩ := h.pop p.missing
      obtain ⟨w₁, hbody, hsteps⟩ := Body.writeAt_spec body fieldPos w₀ hpos
        ⟨Nat.zero_le _, hready.inside⟩
      rw [hbytes] at hsteps
      obtain ⟨w₂, htail, hsteps'⟩ := Record.writeBodies_spec tail w₁
        (Writer.Ready.next (n := 0) (by rwa [Nat.zero_add]) hsteps)
      have hpointers : (Fields.pointer p rest).pointers = 1 + rest.pointers := Nat.add_comm _ _
      refine ⟨w₂, ?_, ?_⟩
      · rw [Record.writeBodies, hpop, ok_bind]
        show body.writeAt fieldPos w₀ >>= _ = _
        rw [hbody, ok_bind, htail]
      · rw [hsteps.length_eq] at hsteps'
        rw [hpointers]
        exact (hsteps.of_pop hbytes hqueue).trans hsteps'
  | _, @Record.nested _ inner rest head tail, w, h => by
      have henough : inner.pointers + rest.pointers ≤ w.positions.length := h.enough
      obtain ⟨w₁, hhead, hsteps⟩ := Record.writeBodies_spec head w ⟨by omega, h.inside⟩
      obtain ⟨w₂, htail, hsteps'⟩ := Record.writeBodies_spec tail w₁ (Writer.Ready.next h hsteps)
      refine ⟨w₂, ?_, ?_⟩
      · rw [Record.writeBodies, hhead, ok_bind, htail]
      · rw [hsteps.length_eq] at hsteps'
        exact hsteps.trans hsteps'

/-- A body is written and its pointer patched. -/
lemma Body.writeAt_spec : ∀ {p : Pointer} (b : Body env p) (fieldPos : ℕ) (w : Writer),
    fieldPos + 4 ≤ w.bytes.length → w.Ready 0 →
      ∃ w', b.writeAt fieldPos w = .ok w' ∧ w.Steps w' (b.bodyEnd w.bytes.length) 0
  | _, .string text, fieldPos, w, hpos, h => by
      have hlen : ((w.write (Writer.countBytes (toUtf8 text).length)).write
          (toUtf8 text)).bytes.length = (Body.string text : Body env _).bodyEnd w.bytes.length := by
        rw [Writer.length_write, Writer.length_write, Writer.length_countBytes, Body.bodyEnd]
      rw [← hlen]
      refine Writer.patchPtr_steps _ hpos ?_ rfl fun pos hmem => ?_
      · rw [hlen, Body.bodyEnd]
        omega
      · have hold := h.inside pos hmem
        rw [hlen, Body.bodyEnd]
        omega
  | _, @Body.vecScalar _ s elements, fieldPos, w, hpos, h => by
      have hflat : (elements.map Vector.toList).flatten.length = elements.length * s.size := by
        rw [List.length_flatten, List.map_map]
        simp [Function.comp_def, List.map_const', List.sum_replicate_nat]
      have hround := le_roundUp (w.bytes.length + 4) s.size
      have hlen : (((w.write (Writer.countBytes (elements.map Vector.toList).length)).write
          (List.replicate (roundUp (w.bytes.length + 4) s.size - (w.write (Writer.countBytes
            (elements.map Vector.toList).length)).bytes.length) 0)).write
          (elements.map Vector.toList).flatten).bytes.length
          = (Body.vecScalar elements : Body env _).bodyEnd w.bytes.length := by
        rw [Writer.length_write, Writer.length_write, Writer.length_write, List.length_replicate,
          Writer.length_countBytes, hflat, Body.bodyEnd]
        omega
      rw [← hlen]
      refine Writer.patchPtr_steps _ hpos ?_ rfl fun pos hmem => ?_
      · rw [hlen, Body.bodyEnd]
        omega
      · have hold := h.inside pos hmem
        rw [hlen, Body.bodyEnd]
        omega
  | _, @Body.vecStruct _ i elements, fieldPos, w, hpos, h => by
      have hlen := Writer.length_beginVec elements.length (env i).align_pos w
      obtain ⟨hlen', hpos'⟩ := elements.writeSkeletons_spec (w.beginVec elements.length
        (env i).align)
      rw [hlen] at hlen'
      obtain ⟨w₁, hbodies, hsteps⟩ := Elements.writeBodies_spec elements _
        (elements.ready (h.beginVec elements.length (env i).align_pos))
      have hgrow := elements.le_skeletonsEnd (roundUp (w.bytes.length + 4) (env i).align)
      have hround := le_roundUp (w.bytes.length + 4) (env i).align
      have hqueue : w₁.positions.length = w.positions.length := by
        have htaken := hsteps.taken
        rw [hpos', Writer.positions_beginVec, List.length_append,
          Elements.length_placeholders] at htaken
        omega
      have hlen₁ : w₁.bytes.length
          = (Body.vecStruct elements : Body env _).bodyEnd w.bytes.length := by
        rw [hsteps.length_eq, hlen']
        rfl
      obtain ⟨w₂, hpatch, hsteps'⟩ := Writer.patchPtr_steps (w := w) w.bytes.length hpos
        (by have := hsteps.grows; omega) hqueue hsteps.inside
      refine ⟨w₂, ?_, ?_⟩
      · rw [Body.writeAt, ← Writer.beginVec, hbodies, ok_bind, hpatch]
      · rwa [← hlen₁]

lemma Elements.writeBodies_spec : ∀ {fs : Fields} (es : Elements env fs) (w : Writer),
    w.Ready (es.length * fs.pointers) →
      ∃ w', es.writeBodies w = .ok w' ∧
        w.Steps w' (es.bodiesEnd w.bytes.length) (es.length * fs.pointers)
  | _, .nil, w, h => by
      exact ⟨w, rfl, rfl, by simp [Elements.length], h.inside, Nat.le_refl _⟩
  | fs, .cons head tail, w, h => by
      rw [Elements.length_cons_mul] at h ⊢
      obtain ⟨w₁, hhead, hsteps⟩ := Record.writeBodies_spec head w
        ⟨(Nat.le_add_right _ _).trans h.enough, h.inside⟩
      obtain ⟨w₂, htail, hsteps'⟩ := Elements.writeBodies_spec tail w₁
        (Writer.Ready.next h hsteps)
      refine ⟨w₂, ?_, ?_⟩
      · rw [Elements.writeBodies, hhead, ok_bind, htail]
      · rw [hsteps.length_eq] at hsteps'
        exact hsteps.trans hsteps'

end

/-! ## The archive -/

/-- Behind the root skeleton the queue has the positions of all pointers of the root. -/
lemma Record.ready (value : Record env fs) :
    (value.writeSkeleton Writer.new).Ready fs.pointers := by
  obtain ⟨hlen, hpos⟩ := value.writeSkeleton_spec Writer.new
  refine ⟨by simp [hpos], fun pos hmem => ?_⟩
  rw [hpos, Writer.new, List.nil_append] at hmem
  rw [hlen]
  exact (fs.placeholder_le hmem).2

/-- The archive is written, and the queue is empty at the end. -/
lemma writeArchive_spec (value : Record env fs) :
    ∃ w, writeArchive value = .ok w ∧ w.bytes.length = value.bodiesEnd (fs.writtenEnd 0) ∧
      w.positions = [] := by
  obtain ⟨hlen, hpos⟩ := value.writeSkeleton_spec Writer.new
  obtain ⟨w, hok, hsteps⟩ := value.writeBodies_spec _ value.ready
  refine ⟨w, hok, ?_, ?_⟩
  · rw [hsteps.length_eq, hlen]
    rfl
  · have htaken := hsteps.taken
    rw [hpos, Writer.new, List.nil_append, Fields.length_placeholders] at htaken
    exact List.eq_nil_of_length_eq_zero (by omega)

end RustBinary.Archive
