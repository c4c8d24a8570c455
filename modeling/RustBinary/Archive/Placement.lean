import RustBinary.Archive.Layout

/-!
# Where the writer puts a value

Every skeleton that `to_archive` writes, the root and the elements of every `Vec` of structs, is
recorded with the address that its mirror has and with the positions at which its leaves are
written.  They agree exactly if no tail padding is missed: at the end of a nested struct, between
the elements of a `Vec`, and behind the root (`inPlace_iff`).
-/

namespace RustBinary.Archive

open Lib Lib.Outcome

variable {env : ℕ → Fields} {fs : Fields}

/-- The buffer lengths at which the leaves of a skeleton are written. -/
def Record.leafPositions {fs : Fields} : Record env fs → Writer → List ℕ
  | .nil, _ => []
  | @Record.scalar _ s _ bytes tail, w =>
      (w.alignTo s.size).bytes.length ::
        tail.leafPositions ((w.alignTo s.size).write bytes.toList)
  | .pointer _ tail, w =>
      (w.alignTo ptrSize).bytes.length :: tail.leafPositions (w.alignTo ptrSize).reservePtr
  | @Record.nested _ inner _ head tail, w =>
      head.leafPositions (w.alignTo inner.align) ++
        tail.leafPositions (head.writeSkeleton (w.alignTo inner.align))

/-- A skeleton: the address of its mirror, its fields, and the positions of its leaves. -/
structure Skeleton where
  mirror : ℕ
  fields : Fields
  leaves : List ℕ

/-- The leaves are at the `#[repr(C)]` addresses of the mirror. -/
def Skeleton.InPlace (s : Skeleton) : Prop := s.leaves = s.fields.mirrorLeaves s.mirror 0

/-- The skeletons of the elements, whose mirrors follow each other from `base` on. -/
def Elements.skeletons {fs : Fields} : Elements env fs → ℕ → Writer → List Skeleton
  | .nil, _, _ => []
  | .cons head tail, base, w =>
      ⟨base, fs, head.leafPositions w⟩ :: tail.skeletons (base + fs.size) (head.writeSkeleton w)

mutual

/-- The skeletons that are written in the bodies phase. -/
def Record.bodySkeletons {fs : Fields} : Record env fs → Writer → List Skeleton
  | .nil, _ => []
  | .scalar _ tail, w => tail.bodySkeletons w
  | @Record.pointer _ p _ body tail, w =>
      match w.popFront p.missing with
      | .ok (fieldPos, w) =>
          body.skeletons w ++
            match body.writeAt fieldPos w with
            | .ok w => tail.bodySkeletons w
            | _ => []
      | _ => []
  | .nested head tail, w =>
      head.bodySkeletons w ++
        match head.writeBodies w with
        | .ok w => tail.bodySkeletons w
        | _ => []

/-- The skeletons in a body: the elements, from `vec_elements_offset` on, and those that their
bodies have. -/
def Body.skeletons {p : Pointer} : Body env p → Writer → List Skeleton
  | .string _, _ => []
  | .vecScalar _, _ => []
  | @Body.vecStruct _ i elements, w =>
      let bodyElements := roundUp (w.bytes.length + 4) (env i).align
      let w := (w.write (Writer.countBytes elements.length)).alignTo (env i).align
      elements.skeletons bodyElements w ++ elements.bodySkeletons (elements.writeSkeletons w)

/-- The skeletons in the bodies of the elements. -/
def Elements.bodySkeletons {fs : Fields} : Elements env fs → Writer → List Skeleton
  | .nil, _ => []
  | .cons head tail, w =>
      head.bodySkeletons w ++
        match head.writeBodies w with
        | .ok w => tail.bodySkeletons w
        | _ => []

end

/-- The skeletons that `to_archive` writes; the mirror of the root is at offset 0. -/
def archiveSkeletons (value : Record env fs) : List Skeleton :=
  ⟨0, fs, value.leafPositions Writer.new⟩ :: value.bodySkeletons (value.writeSkeleton Writer.new)

/-! ## The condition -/

mutual

/-- No tail padding is missed by what is written in the bodies phase. -/
def Record.Tight {fs : Fields} : Record env fs → Prop
  | .nil => True
  | .scalar _ tail => tail.Tight
  | .pointer body tail => body.Tight ∧ tail.Tight
  | .nested head tail => head.Tight ∧ tail.Tight

/-- No tail padding is missed in the elements of a body, and, from two elements on, between
them. -/
def Body.Tight {p : Pointer} : Body env p → Prop
  | .string _ => True
  | .vecScalar _ => True
  | @Body.vecStruct _ i elements =>
      (1 ≤ elements.length → (env i).Tight) ∧
        (2 ≤ elements.length → ∀ a ∈ (env i).headAlign, (env i).gap < a) ∧ elements.Tight

/-- No tail padding is missed in the bodies of the elements. -/
def Elements.Tight {fs : Fields} : Elements env fs → Prop
  | .nil => True
  | .cons head tail => head.Tight ∧ tail.Tight

end

/-! ## Skeletons in place -/

lemma Record.leafPositions_eq : ∀ {fs : Fields} (r : Record env fs) (w : Writer),
    r.leafPositions w = fs.writtenLeaves w.bytes.length
  | _, .nil, _ => rfl
  | _, @Record.scalar _ s _ bytes tail, w => by
      rw [leafPositions, Fields.writtenLeaves, leafPositions_eq tail, Writer.length_write,
        Writer.length_alignTo s.isAlign_size.pos, Vector.length_toList]
  | _, .pointer _ tail, w => by
      rw [leafPositions, Fields.writtenLeaves, leafPositions_eq tail, Writer.length_reservePtr,
        Writer.length_alignTo isAlign_ptrSize.pos]
  | _, @Record.nested _ inner _ head tail, w => by
      rw [leafPositions, Fields.writtenLeaves, leafPositions_eq head, leafPositions_eq tail,
        (head.writeSkeleton_spec _).1, Writer.length_alignTo inner.align_pos]

/-- A skeleton at an aligned address is in place if its fields are tight and it starts where its
mirror does. -/
lemma inPlace_skeleton_iff {base : ℕ} (hbase : fs.align ∣ base) (r : Record env fs) (w : Writer) :
    Skeleton.InPlace ⟨base, fs, r.leafPositions w⟩ ↔
      fs.Tight ∧ fs.Starts w.bytes.length base := by
  rw [Skeleton.InPlace, r.leafPositions_eq, Fields.mirrorLeaves_eq_walkLeaves hbase, Nat.add_zero,
    Fields.writtenLeaves_eq_iff]

/-- Behind an element in place the next one is in place if its first alignment makes up for the
padding. -/
lemma starts_next {start base : ℕ} (hbase : fs.align ∣ base) (htight : fs.Tight)
    (hstart : fs.Starts start base) :
    fs.Starts (fs.writtenEnd start) (base + fs.size) ↔ ∀ a ∈ fs.headAlign, fs.gap < a := by
  rw [← Fields.starts_after (Fields.size_eq htight) hbase]
  refine forall_congr' fun a => imp_congr_right fun ha => ?_
  rw [Fields.writtenEnd_congr ha (hstart a ha)]

/-- The elements of a `Vec` are in place. -/
lemma Elements.row_inPlace_iff : ∀ {fs : Fields} (es : Elements env fs) {base : ℕ} (w : Writer),
    fs.align ∣ base → ((∀ s ∈ es.skeletons base w, s.InPlace) ↔
      (1 ≤ es.length → fs.Tight ∧ fs.Starts w.bytes.length base) ∧
        (2 ≤ es.length → ∀ a ∈ fs.headAlign, fs.gap < a))
  | _, .nil, _, _, _ => by simp [skeletons, length]
  | fs, .cons head tail, base, w, hbase => by
      have hnext : fs.align ∣ base + fs.size := Nat.dvd_add hbase fs.align_dvd_size
      have htail := row_inPlace_iff tail (head.writeSkeleton w) hnext
      rw [skeletons, List.forall_mem_cons, inPlace_skeleton_iff hbase, htail,
        (head.writeSkeleton_spec w).1, length]
      constructor
      · rintro ⟨⟨htight, hstart⟩, hone, htwo⟩
        refine ⟨fun _ => ⟨htight, hstart⟩, fun hlen => ?_⟩
        exact (starts_next hbase htight hstart).mp (hone (by omega)).2
      · rintro ⟨hone, htwo⟩
        obtain ⟨htight, hstart⟩ := hone (by omega)
        refine ⟨⟨htight, hstart⟩, fun hlen => ⟨htight, ?_⟩, fun hlen => htwo (by omega)⟩
        exact (starts_next hbase htight hstart).mpr (htwo (by omega))

/-! ## The bodies phase -/

mutual

lemma Record.bodySkeletons_inPlace_iff : ∀ {fs : Fields} (r : Record env fs) (w : Writer),
    w.Ready fs.pointers → ((∀ s ∈ r.bodySkeletons w, s.InPlace) ↔ r.Tight)
  | _, .nil, w, _ => by simp [Record.bodySkeletons, Record.Tight]
  | _, .scalar _ tail, w, h => Record.bodySkeletons_inPlace_iff tail w h
  | _, @Record.pointer _ p rest body tail, w, h => by
      obtain ⟨fieldPos, w₀, hpop, -, -, hpos, hready⟩ := h.pop p.missing
      have hbody := Body.skeletons_inPlace_iff body w₀ ⟨Nat.zero_le _, hready.inside⟩
      obtain ⟨w₁, hok, hsteps⟩ := body.writeAt_spec fieldPos w₀ hpos
        ⟨Nat.zero_le _, hready.inside⟩
      have htail := Record.bodySkeletons_inPlace_iff tail w₁
        (Writer.Ready.next (n := 0) (by rwa [Nat.zero_add]) hsteps)
      rw [Record.bodySkeletons, hpop]
      dsimp only
      rw [hok, List.forall_mem_append, hbody, htail, Record.Tight]
  | _, @Record.nested _ inner rest head tail, w, h => by
      have henough : inner.pointers + rest.pointers ≤ w.positions.length := h.enough
      have hhead := Record.bodySkeletons_inPlace_iff head w ⟨by omega, h.inside⟩
      obtain ⟨w₁, hok, hsteps⟩ := head.writeBodies_spec w ⟨by omega, h.inside⟩
      have htail := Record.bodySkeletons_inPlace_iff tail w₁ (Writer.Ready.next h hsteps)
      rw [Record.bodySkeletons, hok, List.forall_mem_append, hhead, htail, Record.Tight]

lemma Body.skeletons_inPlace_iff : ∀ {p : Pointer} (b : Body env p) (w : Writer),
    w.Ready 0 → ((∀ s ∈ b.skeletons w, s.InPlace) ↔ b.Tight)
  | _, .string _, _, _ => by simp [Body.skeletons, Body.Tight]
  | _, .vecScalar _, _, _ => by simp [Body.skeletons, Body.Tight]
  | _, @Body.vecStruct _ i elements, w, h => by
      have halign := (env i).align_pos
      have hlen := Writer.length_beginVec elements.length halign w
      have hbase : (env i).align ∣ roundUp (w.bytes.length + 4) (env i).align := dvd_roundUp halign
      have hhere := elements.row_inPlace_iff (w.beginVec elements.length (env i).align) hbase
      rw [hlen] at hhere
      have hbelow := Elements.bodySkeletons_inPlace_iff elements _
        (elements.ready (h.beginVec elements.length halign))
      rw [Body.skeletons, ← Writer.beginVec, List.forall_mem_append, hhere, hbelow, Body.Tight,
        and_assoc]
      simp only [Fields.Starts.refl, and_true]

lemma Elements.bodySkeletons_inPlace_iff : ∀ {fs : Fields} (es : Elements env fs) (w : Writer),
    w.Ready (es.length * fs.pointers) → ((∀ s ∈ es.bodySkeletons w, s.InPlace) ↔ es.Tight)
  | _, .nil, _, _ => by simp [Elements.bodySkeletons, Elements.Tight]
  | fs, .cons head tail, w, h => by
      rw [Elements.length_cons_mul] at h
      have hready : w.Ready fs.pointers := ⟨(Nat.le_add_right _ _).trans h.enough, h.inside⟩
      have hhead := Record.bodySkeletons_inPlace_iff head w hready
      obtain ⟨w₁, hok, hsteps⟩ := head.writeBodies_spec w hready
      have htail := Elements.bodySkeletons_inPlace_iff tail w₁ (Writer.Ready.next h hsteps)
      rw [Elements.bodySkeletons, hok, List.forall_mem_append, hhead, htail, Elements.Tight]

end

lemma archiveSkeletons_inPlace_iff (value : Record env fs) :
    (∀ s ∈ archiveSkeletons value, s.InPlace) ↔ fs.Tight ∧ value.Tight := by
  have hroot := inPlace_skeleton_iff (Nat.dvd_zero fs.align) value Writer.new
  rw [archiveSkeletons, List.forall_mem_cons, hroot,
    value.bodySkeletons_inPlace_iff _ value.ready]
  exact and_congr_left fun _ => and_iff_left (Fields.Starts.refl fs 0)

/-- **Layout agreement.** The writer puts every leaf at the address that the mirror has for it, and
the payload holds the mirror of the root, exactly if no tail padding is missed: behind nested
structs, between the elements of a `Vec`, and behind the root, unless the bodies make up for it. -/
theorem inPlace_iff (value : Record env fs) :
    ((∀ s ∈ archiveSkeletons value, s.InPlace) ∧
        ∃ payload, toArchive value = .ok payload ∧ fs.size ≤ payload.length) ↔
      fs.Tight ∧ value.Tight ∧ fs.size ≤ value.bodiesEnd (fs.writtenEnd 0) := by
  obtain ⟨w, hok, hlen, -⟩ := writeArchive_spec value
  have hpayload : (∃ payload, toArchive value = .ok payload ∧ fs.size ≤ payload.length) ↔
      fs.size ≤ value.bodiesEnd (fs.writtenEnd 0) := by
    rw [toArchive, hok, ← hlen]
    constructor
    · rintro ⟨payload, ⟨⟩, hsize⟩
      exact hsize
    · intro hsize
      exact ⟨w.bytes, rfl, hsize⟩
  rw [archiveSkeletons_inPlace_iff, hpayload, and_assoc]

/-- A struct of a `u32` and a `u8`, and another one that holds it in front of a `u8`. -/
def innerFields : Fields := .scalar .u32 (.scalar .u8 .nil)

def outerFields : Fields := .nested innerFields (.scalar .u8 .nil)

def outerValue : Record (fun _ => .nil) outerFields :=
  .nested (.scalar #v[1, 0, 0, 0] (.scalar #v[2] .nil)) (.scalar #v[3] .nil)

/-- The second `u8` is written into the padding of the mirror, and the payload is shorter than
the mirror. -/
theorem outerValue_misplaced :
    toArchive outerValue = .ok [1, 0, 0, 0, 2, 3] ∧
      (archiveSkeletons outerValue).map Skeleton.leaves = [[0, 4, 5]] ∧
      outerFields.mirrorLeaves 0 0 = [0, 4, 8] ∧ outerFields.size = 12 := by
  decide

end RustBinary.Archive
