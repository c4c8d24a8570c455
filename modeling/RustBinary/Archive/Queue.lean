import RustBinary.Archive.Lengths

/-!
# The queue of positions

Every position that the bodies phase takes out of the queue is recorded beside the position that
was reserved for the same pointer.  The queue is first-in, first-out, and the pointers of the
elements of a `Vec` are put behind those that are still waiting; so the bodies phase patches the
right pointers exactly if nothing is waiting then (`matched_iff`).
-/

namespace RustBinary.Archive

open Lib Lib.Outcome

variable {env : ℕ → Fields} {fs : Fields}

mutual

/-- The positions that the bodies phase takes, each with the one that was reserved; `own` are the
positions that were reserved for the pointers of the record. -/
def Record.pops {fs : Fields} : Record env fs → List ℕ → Writer → List (ℕ × ℕ)
  | .nil, _, _ => []
  | .scalar _ tail, own, w => tail.pops own w
  | @Record.pointer _ p _ body tail, own, w =>
      match w.popFront p.missing with
      | .ok (fieldPos, w) =>
          (fieldPos, own.headD 0) :: (body.pops w ++
            match body.writeAt fieldPos w with
            | .ok w => tail.pops own.tail w
            | _ => [])
      | _ => []
  | @Record.nested _ inner _ head tail, own, w =>
      head.pops (own.take inner.pointers) w ++
        match head.writeBodies w with
        | .ok w => tail.pops (own.drop inner.pointers) w
        | _ => []

/-- The positions that are taken for the elements of a body. -/
def Body.pops {p : Pointer} : Body env p → Writer → List (ℕ × ℕ)
  | .string _, _ => []
  | .vecScalar _, _ => []
  | @Body.vecStruct _ i elements, w =>
      let w := w.beginVec elements.length (env i).align
      let w' := elements.writeSkeletons w
      elements.pops (w'.positions.drop w.positions.length) w'

/-- The positions that are taken for the elements of a `Vec`. -/
def Elements.pops {fs : Fields} : Elements env fs → List ℕ → Writer → List (ℕ × ℕ)
  | .nil, _, _ => []
  | .cons head tail, own, w =>
      head.pops (own.take fs.pointers) w ++
        match head.writeBodies w with
        | .ok w => tail.pops (own.drop fs.pointers) w
        | _ => []

end

/-- The positions that `to_archive` takes. -/
def archivePops (value : Record env fs) : List (ℕ × ℕ) :=
  value.pops (value.writeSkeleton Writer.new).positions (value.writeSkeleton Writer.new)

/-- Every position that is taken is the one that was reserved. -/
def Matched (pops : List (ℕ × ℕ)) : Prop := ∀ pop ∈ pops, pop.1 = pop.2

lemma matched_append {pops pops' : List (ℕ × ℕ)} :
    Matched (pops ++ pops') ↔ Matched pops ∧ Matched pops' := List.forall_mem_append

lemma matched_cons {pop : ℕ × ℕ} {pops : List (ℕ × ℕ)} :
    Matched (pop :: pops) ↔ pop.1 = pop.2 ∧ Matched pops := List.forall_mem_cons

lemma matched_nil : Matched [] := by simp [Matched]

/-! ## The condition -/

mutual

/-- Whenever the elements of a `Vec` bring pointers with them, no pointer is waiting; `waiting` is
the number of pointers that wait behind those of the record. -/
def Record.QueueSafe {fs : Fields} : Record env fs → ℕ → Prop
  | .nil, _ => True
  | .scalar _ tail, waiting => tail.QueueSafe waiting
  | @Record.pointer _ _ rest body tail, waiting =>
      body.QueueSafe (rest.pointers + waiting) ∧ tail.QueueSafe waiting
  | @Record.nested _ _ rest head tail, waiting =>
      head.QueueSafe (rest.pointers + waiting) ∧ tail.QueueSafe waiting

/-- The same for a body. -/
def Body.QueueSafe {p : Pointer} : Body env p → ℕ → Prop
  | .string _, _ => True
  | .vecScalar _, _ => True
  | @Body.vecStruct _ i elements, waiting =>
      elements.length * (env i).pointers ≠ 0 → waiting = 0 ∧ elements.QueueSafe 0

/-- The same for the elements of a `Vec`, where those behind an element wait too. -/
def Elements.QueueSafe {fs : Fields} : Elements env fs → ℕ → Prop
  | .nil, _ => True
  | .cons head tail, waiting =>
      head.QueueSafe (tail.length * fs.pointers + waiting) ∧ tail.QueueSafe waiting

end

/-! ## Without pointers -/

/-- Without pointers the bodies phase does nothing. -/
lemma Record.bodies_of_no_pointers : ∀ {fs : Fields} (r : Record env fs) (own : List ℕ)
    (w : Writer), fs.pointers = 0 → r.writeBodies w = .ok w ∧ r.pops own w = []
  | _, .nil, _, _, _ => ⟨rfl, rfl⟩
  | _, .scalar _ tail, own, w, h => bodies_of_no_pointers tail own w h
  | _, .pointer _ _, _, _, h => absurd h (Nat.succ_ne_zero _)
  | _, @Record.nested _ inner rest head tail, own, w, h => by
      obtain ⟨hinner, hrest⟩ := Nat.add_eq_zero_iff.mp h
      obtain ⟨hhead, hpops⟩ := bodies_of_no_pointers head (own.take inner.pointers) w hinner
      obtain ⟨htail, hpops'⟩ := bodies_of_no_pointers tail (own.drop inner.pointers) w hrest
      rw [Record.writeBodies, Record.pops, hhead, hpops]
      exact ⟨htail, hpops'⟩

lemma Elements.bodies_of_no_pointers : ∀ {fs : Fields} (es : Elements env fs) (own : List ℕ)
    (w : Writer), es.length * fs.pointers = 0 → es.writeBodies w = .ok w ∧ es.pops own w = []
  | _, .nil, _, _, _ => ⟨rfl, rfl⟩
  | fs, .cons head tail, own, w, h => by
      have hfs : fs.pointers = 0 := (Nat.mul_eq_zero.mp h).resolve_left (Nat.succ_ne_zero _)
      obtain ⟨hhead, hpops⟩ := head.bodies_of_no_pointers (own.take fs.pointers) w hfs
      obtain ⟨htail, hpops'⟩ := bodies_of_no_pointers tail (own.drop fs.pointers) w (by
        rw [hfs, Nat.mul_zero])
      rw [Elements.writeBodies, Elements.pops, hhead, hpops]
      exact ⟨htail, hpops'⟩

lemma Record.safe_of_no_pointers : ∀ {fs : Fields} (r : Record env fs) (waiting : ℕ),
    fs.pointers = 0 → r.QueueSafe waiting
  | _, .nil, _, _ => trivial
  | _, .scalar _ tail, waiting, h => safe_of_no_pointers tail waiting h
  | _, .pointer _ _, _, h => absurd h (Nat.succ_ne_zero _)
  | _, .nested head tail, waiting, h => by
      obtain ⟨hinner, hrest⟩ := Nat.add_eq_zero_iff.mp h
      exact ⟨safe_of_no_pointers head _ hinner, safe_of_no_pointers tail waiting hrest⟩

lemma Elements.safe_of_no_pointers : ∀ {fs : Fields} (es : Elements env fs) (waiting : ℕ),
    es.length * fs.pointers = 0 → es.QueueSafe waiting
  | _, .nil, _, _ => trivial
  | fs, .cons head tail, waiting, h => by
      have hfs : fs.pointers = 0 := (Nat.mul_eq_zero.mp h).resolve_left (Nat.succ_ne_zero _)
      refine ⟨head.safe_of_no_pointers _ hfs, safe_of_no_pointers tail waiting ?_⟩
      rw [hfs, Nat.mul_zero]

/-! ## The first position -/

/-- With pointers the bodies phase first takes the position in front. -/
lemma Record.pops_head : ∀ {fs : Fields} (r : Record env fs) (own : List ℕ) (w : Writer),
    fs.pointers ≠ 0 → w.positions ≠ [] →
      ∃ pops, r.pops own w = (w.positions.headD 0, own.headD 0) :: pops
  | _, .nil, _, _, h, _ => absurd rfl h
  | _, .scalar _ tail, own, w, h, hq => pops_head tail own w h hq
  | _, @Record.pointer _ p _ body tail, own, w, _, hq => by
      obtain ⟨fieldPos, positions, hqueue⟩ := List.exists_cons_of_ne_nil hq
      rw [Record.pops, Writer.popFront, hqueue]
      exact ⟨_, rfl⟩
  | _, @Record.nested _ inner rest head tail, own, w, h, hq => by
      rw [Record.pops]
      by_cases hinner : inner.pointers = 0
      · obtain ⟨hhead, hpops⟩ := head.bodies_of_no_pointers (own.take inner.pointers) w hinner
        rw [hhead, hpops, hinner, List.drop_zero]
        exact pops_head tail own w (by rw [Fields.pointers, hinner, Nat.zero_add] at h; exact h) hq
      · obtain ⟨pops, hpops⟩ := pops_head head (own.take inner.pointers) w hinner hq
        obtain ⟨k, hk⟩ := Nat.exists_eq_succ_of_ne_zero hinner
        have hfirst : (own.take inner.pointers).headD 0 = own.headD 0 := by
          rw [hk]
          cases own <;> rfl
        rw [hpops, hfirst]
        exact ⟨_, rfl⟩

lemma Elements.pops_head (es : Elements env fs) (own : List ℕ) (w : Writer)
    (h : es.length * fs.pointers ≠ 0) (hq : w.positions ≠ []) :
    ∃ pops, es.pops own w = (w.positions.headD 0, own.headD 0) :: pops := by
  cases es with
  | nil => exact absurd (Nat.zero_mul _) h
  | cons head tail =>
      have hfs : fs.pointers ≠ 0 := fun hzero => h (by rw [hzero, Nat.mul_zero])
      obtain ⟨pops, hpops⟩ := head.pops_head (own.take fs.pointers) w hfs hq
      obtain ⟨k, hk⟩ := Nat.exists_eq_succ_of_ne_zero hfs
      have hfirst : (own.take fs.pointers).headD 0 = own.headD 0 := by
        rw [hk]
        cases own <;> rfl
      rw [Elements.pops, hpops, hfirst]
      exact ⟨_, rfl⟩

/-! ## Matching -/

lemma Writer.patchPtr_positions {w w' : Writer} {fieldPos dataPos : ℕ}
    (h : w.patchPtr fieldPos dataPos = .ok w') : w'.positions = w.positions := by
  rw [patchPtr] at h
  split at h
  · cases h
    rfl
  · cases h

/-- What is proved of a step that takes `pops` on the way from `w`, where `waiting` waits. -/
structure QueueSpec (pops : List (ℕ × ℕ)) (out : Outcome String Writer) (waiting : List ℕ)
    (safe : Prop) : Prop where
  matched_iff : Matched pops ↔ safe
  rest : safe → ∀ w', out = .ok w' → w'.positions = waiting

lemma Elements.queue_split {own : List ℕ} (waiting : List ℕ) {n m : ℕ} (h : own.length = n + m) :
    own ++ waiting = own.take n ++ (own.drop n ++ waiting) ∧ (own.take n).length = n ∧
      (own.drop n).length = m := by
  refine ⟨by rw [← List.append_assoc, List.take_append_drop], ?_, ?_⟩
  · rw [List.length_take]
    omega
  · rw [List.length_drop]
    omega

mutual

lemma Record.queueSpec : ∀ {fs : Fields} (r : Record env fs) (own waiting : List ℕ) (w : Writer),
    w.positions = own ++ waiting → own.length = fs.pointers → w.Ready fs.pointers →
      QueueSpec (r.pops own w) (r.writeBodies w) waiting (r.QueueSafe waiting.length)
  | _, .nil, own, waiting, w, hq, hown, _ => by
      obtain rfl := List.eq_nil_of_length_eq_zero hown
      refine ⟨iff_of_true matched_nil trivial, fun _ w' hw' => ?_⟩
      cases hw'
      exact hq
  | _, .scalar _ tail, own, waiting, w, hq, hown, h =>
      Record.queueSpec tail own waiting w hq hown h
  | _, @Record.pointer _ p rest body tail, own, waiting, w, hq, hown, h => by
      obtain ⟨pos, own, rfl⟩ := List.exists_cons_of_length_eq_add_one hown
      have hlen : own.length = rest.pointers := Nat.succ.inj hown
      obtain ⟨fieldPos, w₀, hpop, _, hqueue, hpos, hready⟩ := h.pop p.missing
      -- First-in, first-out: what is taken is the position in front, the one of this pointer.
      obtain ⟨rfl, hrest⟩ := List.cons_eq_cons.mp (hqueue.symm.trans hq)
      change w₀.positions = own ++ waiting at hrest
      have hbody := Body.queueSpec body fieldPos w₀ hpos ⟨Nat.zero_le _, hready.inside⟩
      rw [hrest, List.length_append, hlen] at hbody
      obtain ⟨w₁, hok, hsteps⟩ := body.writeAt_spec fieldPos w₀ hpos
        ⟨Nat.zero_le _, hready.inside⟩
      have htail := fun hsafe => Record.queueSpec tail own waiting w₁ (hbody.rest hsafe w₁ hok)
        hlen (Writer.Ready.next (n := 0) (by rwa [Nat.zero_add]) hsteps)
      have hpops : (Record.pointer body tail).pops (fieldPos :: own) w
          = (fieldPos, fieldPos) :: (body.pops w₀ ++ tail.pops own w₁) := by
        rw [Record.pops, hpop]
        show (fieldPos, fieldPos) :: (body.pops w₀ ++ _) = _
        rw [hok]
        rfl
      have hbodies : (Record.pointer body tail).writeBodies w = tail.writeBodies w₁ := by
        rw [Record.writeBodies, hpop, ok_bind]
        show body.writeAt fieldPos w₀ >>= _ = _
        rw [hok, ok_bind]
      rw [hpops, hbodies]
      constructor
      · rw [matched_cons, matched_append, hbody.matched_iff]
        exact (and_iff_right rfl).trans (and_congr_right fun hsafe => (htail hsafe).matched_iff)
      · exact fun hsafe => (htail hsafe.1).rest hsafe.2
  | _, @Record.nested _ inner rest head tail, own, waiting, w, hq, hown, h => by
      obtain ⟨hsplit, htake, hdrop⟩ := Elements.queue_split waiting hown
      have henough : inner.pointers + rest.pointers ≤ w.positions.length := h.enough
      have hready : w.Ready inner.pointers := ⟨by omega, h.inside⟩
      have hhead := Record.queueSpec head _ _ w (hq.trans hsplit) htake hready
      rw [List.length_append, hdrop] at hhead
      obtain ⟨w₁, hok, hsteps⟩ := head.writeBodies_spec w hready
      have htail := fun hsafe => Record.queueSpec tail _ waiting w₁ (hhead.rest hsafe w₁ hok) hdrop
        (Writer.Ready.next h hsteps)
      rw [Record.pops, Record.writeBodies, hok, ok_bind]
      constructor
      · rw [matched_append, hhead.matched_iff]
        exact and_congr_right fun hsafe => (htail hsafe).matched_iff
      · exact fun hsafe => (htail hsafe.1).rest hsafe.2

lemma Body.queueSpec : ∀ {p : Pointer} (b : Body env p) (fieldPos : ℕ) (w : Writer),
    fieldPos + 4 ≤ w.bytes.length → w.Ready 0 →
      QueueSpec (b.pops w) (b.writeAt fieldPos w) w.positions (b.QueueSafe w.positions.length)
  | _, .string text, fieldPos, w, hpos, h => by
      refine ⟨iff_of_true matched_nil trivial, fun _ w' hw' => ?_⟩
      rw [Body.writeAt, Writer.writeStringAt] at hw'
      rw [Writer.patchPtr_positions hw', Writer.positions_write, Writer.positions_write]
  | _, .vecScalar elements, fieldPos, w, hpos, h => by
      refine ⟨iff_of_true matched_nil trivial, fun _ w' hw' => ?_⟩
      rw [Body.writeAt, Writer.writeVecAt] at hw'
      rw [Writer.patchPtr_positions hw', Writer.positions_write, Writer.positions_write,
        Writer.positions_write]
  | _, @Body.vecStruct _ i elements, fieldPos, w, hpos, h => by
      have hready := elements.ready (h.beginVec elements.length (env i).align_pos)
      obtain ⟨_, hqueue⟩ := elements.writeSkeletons_spec
        (w.beginVec elements.length (env i).align)
      rw [Writer.positions_beginVec] at hqueue
      rw [Body.pops, Body.writeAt, ← Writer.beginVec]
      generalize hstart : (w.beginVec elements.length (env i).align).bytes.length = start at hqueue
      have hgrow : w.bytes.length ≤ start := by
        have hround := le_roundUp (w.bytes.length + 4) (env i).align
        rw [Writer.length_beginVec _ (env i).align_pos] at hstart
        omega
      generalize hw₁ : elements.writeSkeletons (w.beginVec elements.length (env i).align) = w₁
        at hready hqueue
      rw [Writer.positions_beginVec, hqueue, List.drop_left]
      have hown : (elements.placeholders start).length = elements.length * (env i).pointers :=
        elements.length_placeholders start
      by_cases hnone : elements.length * (env i).pointers = 0
      · -- Nothing is put into the queue, so that it does not matter what waits in it.
        obtain ⟨hbodies, hpops⟩ := elements.bodies_of_no_pointers
          (elements.placeholders start) w₁ hnone
        rw [hnone, List.length_eq_zero_iff] at hown
        rw [hbodies, hpops, ok_bind]
        refine ⟨iff_of_true matched_nil fun hsome => absurd hnone hsome, fun _ w' hw' => ?_⟩
        rw [Writer.patchPtr_positions hw', hqueue, hown, List.append_nil]
      · by_cases hempty : w.positions = []
        · have hes := Elements.queueSpec elements (elements.placeholders start) [] w₁
            (by rw [hqueue, hempty, List.nil_append, List.append_nil]) hown hready
          have hsafe : (Body.vecStruct elements).QueueSafe w.positions.length
              ↔ elements.QueueSafe 0 := by
            rw [Body.QueueSafe, hempty]
            exact ⟨fun hsafe => (hsafe hnone).2, fun hsafe _ => ⟨rfl, hsafe⟩⟩
          rw [hsafe]
          refine ⟨hes.matched_iff, fun hsafe w' hw' => ?_⟩
          obtain ⟨w₂, hok, hpatch⟩ := bind_eq_ok.mp hw'
          rw [Writer.patchPtr_positions hpatch, hes.rest hsafe w₂ hok, hempty]
        · -- The position in front was reserved before the elements were written.
          have hunsafe : ¬ (Body.vecStruct elements).QueueSafe w.positions.length := fun hsafe =>
            hempty (List.eq_nil_of_length_eq_zero (hsafe hnone).1)
          refine ⟨iff_of_false (fun hmatched => ?_) hunsafe, fun hsafe => absurd hsafe hunsafe⟩
          obtain ⟨pops, hpops⟩ := elements.pops_head (elements.placeholders start) w₁ hnone (by
            rw [hqueue]
            exact List.append_ne_nil_of_left_ne_nil hempty _)
          rw [hpops, matched_cons, hqueue] at hmatched
          obtain ⟨pos, positions, hpositions⟩ := List.exists_cons_of_ne_nil hempty
          obtain ⟨pos', own, hplaceholders⟩ := List.exists_cons_of_ne_nil
            (List.ne_nil_of_length_pos (hown ▸ Nat.pos_of_ne_zero hnone))
          have hold := h.inside pos (by rw [hpositions]; exact List.mem_cons_self)
          have hmem : pos' ∈ elements.placeholders start := by
            rw [hplaceholders]
            exact List.mem_cons_self
          have hnew := elements.placeholder_le hmem
          have heq := hmatched.1
          rw [hpositions, hplaceholders] at heq
          change pos = pos' at heq
          omega

lemma Elements.queueSpec : ∀ {fs : Fields} (es : Elements env fs) (own waiting : List ℕ)
    (w : Writer), w.positions = own ++ waiting → own.length = es.length * fs.pointers →
      w.Ready (es.length * fs.pointers) →
      QueueSpec (es.pops own w) (es.writeBodies w) waiting (es.QueueSafe waiting.length)
  | _, .nil, own, waiting, w, hq, hown, _ => by
      rw [Elements.length, Nat.zero_mul] at hown
      obtain rfl := List.eq_nil_of_length_eq_zero hown
      refine ⟨iff_of_true matched_nil trivial, fun _ w' hw' => ?_⟩
      cases hw'
      exact hq
  | fs, .cons head tail, own, waiting, w, hq, hown, h => by
      rw [Elements.length_cons_mul] at hown h
      obtain ⟨hsplit, htake, hdrop⟩ := Elements.queue_split waiting hown
      have hready : w.Ready fs.pointers := ⟨(Nat.le_add_right _ _).trans h.enough, h.inside⟩
      have hhead := Record.queueSpec head _ _ w (hq.trans hsplit) htake hready
      rw [List.length_append, hdrop] at hhead
      obtain ⟨w₁, hok, hsteps⟩ := head.writeBodies_spec w hready
      have htail := fun hsafe => Elements.queueSpec tail _ waiting w₁ (hhead.rest hsafe w₁ hok)
        hdrop (Writer.Ready.next h hsteps)
      rw [Elements.pops, Elements.writeBodies, hok, ok_bind]
      constructor
      · rw [matched_append, hhead.matched_iff]
        exact and_congr_right fun hsafe => (htail hsafe).matched_iff
      · exact fun hsafe => (htail hsafe.1).rest hsafe.2

end

end RustBinary.Archive
