import RustBinary.Archive.CheckBytes
import RustBinary.Archive.Layout

/-!
# What can be reached from the root

The mirrors that are reached from the root of a payload, through nested structs and through the
elements of every `Vec`.  Where the validator accepts a payload, it has walked over each of them
(`Reaches.checked`); so all of them, and all strings and vectors behind their pointers, are in the
payload, if the root is (`checkBytes_sound_iff`).
-/

namespace RustBinary.Archive

open Lib Lib.Outcome

/-! ## The parts of a mirror -/

/-- A field of a mirror. -/
inductive Part where
  | scalar (s : Scalar)
  | pointer (p : Pointer)
  | nested (inner : Fields)

namespace Part

def size : Part → ℕ
  | scalar s => s.size
  | pointer _ => ptrSize
  | nested inner => inner.size

def align : Part → ℕ
  | scalar s => s.size
  | pointer _ => ptrSize
  | nested inner => inner.align

end Part

/-- The fields of a mirror with their offsets; `offset` is the end of the fields in front. -/
def Fields.parts : Fields → ℕ → List (Part × ℕ)
  | nil, _ => []
  | scalar s rest, offset =>
      (.scalar s, roundUp offset s.size) :: rest.parts (roundUp offset s.size + s.size)
  | pointer p rest, offset =>
      (.pointer p, roundUp offset ptrSize) :: rest.parts (roundUp offset ptrSize + ptrSize)
  | nested inner rest, offset =>
      (.nested inner, roundUp offset inner.align) ::
        rest.parts (roundUp offset inner.align + inner.size)

/-- The mirrors that are reached from the root, with their positions in the payload. -/
inductive Reaches (env : ℕ → Fields) (bytes : List UInt8) (root : Fields) : Fields → ℕ → Prop
  | root : Reaches env bytes root root 0
  | nested {fs : Fields} {base : ℕ} {inner : Fields} {offset : ℕ} :
      Reaches env bytes root fs base → (.nested inner, offset) ∈ fs.parts 0 →
        Reaches env bytes root inner (base + offset)
  | element {fs : Fields} {base i offset elements count k : ℕ} :
      Reaches env bytes root fs base → (.pointer (.vecStruct i), offset) ∈ fs.parts 0 →
        readVec bytes (env i).align (base + offset) = some (elements, count) → k < count →
          Reaches env bytes root (env i) (elements + k * (env i).size)

/-- The size and the alignment of the elements behind a pointer. -/
def Pointer.element (env : ℕ → Fields) : Pointer → Option (ℕ × ℕ)
  | string => none
  | vecScalar s => some (s.size, s.size)
  | vecStruct i => some ((env i).size, (env i).align)

/-- The mirror at the position `base` is in the payload, with its fields and with the strings, in
UTF-8, and the vectors that its pointers lead to. -/
structure Inside (env : ℕ → Fields) (bytes : List UInt8) (fs : Fields) (base : ℕ) : Prop where
  mirror : base + fs.size ≤ bytes.length
  part : ∀ part offset, (part, offset) ∈ fs.parts 0 → base + offset + part.size ≤ bytes.length
  string : ∀ offset, (.pointer .string, offset) ∈ fs.parts 0 →
    ∃ raw text, readString bytes (base + offset) = some raw ∧ fromUtf8 raw = some text
  vec : ∀ p offset size align, (.pointer p, offset) ∈ fs.parts 0 →
    p.element env = some (size, align) →
      ∃ elements count, readVec bytes align (base + offset) = some (elements, count) ∧
        elements + count * size ≤ bytes.length

/-! ## The walk over the parts -/

variable {env : ℕ → Fields} {bytes : List UInt8} {fs root : Fields} {base offset : ℕ}

/-- A field lies between the end of the fields in front and the end of the mirror. -/
lemma Fields.part_inside {part : Part} {start : ℕ} (h : (part, offset) ∈ fs.parts start) :
    offset + part.size ≤ fs.mirrorEnd start := by
  have hgrow : ∀ (fs : Fields) (start : ℕ), start ≤ fs.mirrorEnd start := by
    intro fs
    induction fs with
    | nil => exact fun start => Nat.le_refl start
    | scalar s rest ih =>
        exact fun start => ((le_roundUp start _).trans (Nat.le_add_right _ _)).trans (ih _)
    | pointer p rest ih =>
        exact fun start => ((le_roundUp start _).trans (Nat.le_add_right _ _)).trans (ih _)
    | nested inner rest _ ih =>
        exact fun start => ((le_roundUp start _).trans (Nat.le_add_right _ _)).trans (ih _)
  induction fs generalizing start with
  | nil => simp [parts] at h
  | scalar s rest ih =>
      rcases List.mem_cons.mp h with hhead | htail
      · cases hhead
        exact hgrow rest _
      · exact ih htail
  | pointer p rest ih =>
      rcases List.mem_cons.mp h with hhead | htail
      · cases hhead
        exact hgrow rest _
      · exact ih htail
  | nested inner rest _ ih =>
      rcases List.mem_cons.mp h with hhead | htail
      · cases hhead
        exact hgrow rest _
      · exact ih htail

lemma Fields.part_le_size {part : Part} (h : (part, offset) ∈ fs.parts 0) :
    offset + part.size ≤ fs.size :=
  (part_inside h).trans (le_roundUp _ _)

/-- A field is aligned, and the struct is aligned at least as much. -/
lemma Fields.part_aligned {part : Part} {start : ℕ} (h : (part, offset) ∈ fs.parts start) :
    part.align ∣ offset ∧ part.align ∣ fs.align := by
  induction fs generalizing start with
  | nil => simp [parts] at h
  | scalar s rest ih =>
      rcases List.mem_cons.mp h with hhead | htail
      · cases hhead
        exact ⟨dvd_roundUp s.isAlign_size.pos, (scalar_dvd (Nat.dvd_refl _)).1⟩
      · obtain ⟨hoffset, halign⟩ := ih htail
        exact ⟨hoffset, halign.trans (scalar_dvd (Nat.dvd_refl _)).2⟩
  | pointer p rest ih =>
      rcases List.mem_cons.mp h with hhead | htail
      · cases hhead
        exact ⟨dvd_roundUp isAlign_ptrSize.pos, (pointer_dvd (Nat.dvd_refl _)).1⟩
      · obtain ⟨hoffset, halign⟩ := ih htail
        exact ⟨hoffset, halign.trans (pointer_dvd (Nat.dvd_refl _)).2⟩
  | nested inner rest _ ih =>
      rcases List.mem_cons.mp h with hhead | htail
      · cases hhead
        exact ⟨dvd_roundUp inner.align_pos, (nested_dvd (Nat.dvd_refl _)).1⟩
      · obtain ⟨hoffset, halign⟩ := ih htail
        exact ⟨hoffset, halign.trans (nested_dvd (Nat.dvd_refl _)).2⟩

/-- What the walk over a mirror at the position `base` checks of a field. -/
def Part.Checked (env : ℕ → Fields) (bytes : List UInt8)
    (check : ℕ → ℕ → Outcome String Unit) (base offset : ℕ) : Part → Prop
  | scalar _ => True
  | pointer p => p.check env bytes check (base + offset) = .ok ()
  | nested inner => inner.check env bytes check (base + offset) = .ok ()

/-- At an aligned position the walk comes over the fields of the mirror. -/
lemma Fields.check_parts {check : ℕ → ℕ → Outcome String Unit} (hbase : fs.align ∣ base)
    {start : ℕ} (h : fs.check env bytes check (base + start) = .ok ()) {part : Part}
    (hpart : (part, offset) ∈ fs.parts start) : part.Checked env bytes check base offset := by
  induction fs generalizing start with
  | nil => simp [parts] at hpart
  | scalar s rest ih =>
      obtain ⟨hs, hrest⟩ := scalar_dvd hbase
      rcases List.mem_cons.mp hpart with hhead | htail
      · cases hhead
        trivial
      · rw [Fields.check, roundUp_add _ _ hs, Nat.add_assoc] at h
        exact ih hrest h htail
  | pointer p rest ih =>
      obtain ⟨hs, hrest⟩ := pointer_dvd hbase
      rw [Fields.check, roundUp_add _ _ hs, Nat.add_assoc] at h
      obtain ⟨_, hp, h⟩ := bind_eq_ok.mp h
      rcases List.mem_cons.mp hpart with hhead | htail
      · cases hhead
        exact hp
      · exact ih hrest h htail
  | nested inner rest _ ih =>
      obtain ⟨hi, hrest⟩ := nested_dvd hbase
      rw [Fields.check, roundUp_add _ _ hi, Nat.add_assoc] at h
      obtain ⟨_, hinner, h⟩ := bind_eq_ok.mp h
      rcases List.mem_cons.mp hpart with hhead | htail
      · cases hhead
        exact hinner
      · exact ih hrest h htail

/-! ## The mirrors that are reached -/

/-- A mirror that is reached is aligned, and it was checked in the rounds that were left. -/
lemma Reaches.checked {rounds : ℕ} (hok : checkArchive env root bytes rounds = .ok ())
    (h : Reaches env bytes root fs base) :
    fs.align ∣ base ∧ ∃ rounds, fs.check env bytes (checkAt env bytes rounds) base = .ok () := by
  induction h with
  | root => exact ⟨Nat.dvd_zero _, rounds, hok⟩
  | nested _ hpart ih =>
      obtain ⟨hbase, rounds, hcheck⟩ := ih
      obtain ⟨hoffset, halign⟩ := Fields.part_aligned hpart
      exact ⟨Nat.dvd_add (halign.trans hbase) hoffset, rounds,
        Fields.check_parts hbase hcheck hpart⟩
  | @element fs base i offset elements count k _ hpart hread hk ih =>
      obtain ⟨hbase, rounds, hcheck⟩ := ih
      have hvec : checkVecNested bytes (checkAt env bytes rounds i) (base + offset) (env i).size
          (env i).align = .ok () := Fields.check_parts hbase hcheck hpart
      rw [checkVecNested] at hvec
      obtain ⟨⟨count', body⟩, hbody, helements⟩ := bind_eq_ok.mp hvec
      obtain ⟨hread', -, -⟩ := of_checkVecBody hbody
      obtain ⟨rfl, rfl⟩ : elements = body ∧ count = count' :=
        Prod.mk.inj (Option.some.inj (hread.symm.trans hread'))
      have hone := of_checkElements helements hk
      rw [Nat.zero_add] at hone
      refine ⟨Nat.dvd_add ?_ ((env i).align_dvd_size.mul_left k), ?_⟩
      · rw [readVec, Option.bind_eq_bind, Option.bind_eq_some_iff] at hread
        obtain ⟨data, -, hread⟩ := hread
        obtain ⟨count, -, hread⟩ := Option.bind_eq_some_iff.mp hread
        cases hread
        exact dvd_roundUp (env i).align_pos
      · -- one round is used up for the element
        cases rounds with
        | zero => cases hone
        | succ rounds => exact ⟨rounds, hone⟩

/-- A checked vector is in the payload. -/
lemma Pointer.vec_of_check {check : ℕ → ℕ → Outcome String Unit} {p : Pointer}
    {fieldPos size align : ℕ} (h : p.check env bytes check fieldPos = .ok ())
    (helement : p.element env = some (size, align)) :
    ∃ elements count, readVec bytes align fieldPos = some (elements, count) ∧
      elements + count * size ≤ bytes.length := by
  cases p with
  | string => cases helement
  | vecScalar s =>
      cases helement
      rw [Pointer.check, checkVecField] at h
      obtain ⟨⟨count, elements⟩, hbody, -⟩ := bind_eq_ok.mp h
      obtain ⟨hread, -, hle⟩ := of_checkVecBody hbody
      exact ⟨elements, count, hread, hle⟩
  | vecStruct i =>
      cases helement
      rw [Pointer.check, checkVecNested] at h
      obtain ⟨⟨count, elements⟩, hbody, -⟩ := bind_eq_ok.mp h
      obtain ⟨hread, -, hle⟩ := of_checkVecBody hbody
      exact ⟨elements, count, hread, hle⟩

/-- A mirror that is reached is in the payload, if the root is. -/
lemma Reaches.mirror_inside {rounds : ℕ} (hok : checkArchive env root bytes rounds = .ok ())
    (hroot : root.size ≤ bytes.length) (h : Reaches env bytes root fs base) :
    base + fs.size ≤ bytes.length := by
  induction h with
  | root => rwa [Nat.zero_add]
  | nested _ hpart ih =>
      have hle : _ + Fields.size _ ≤ Fields.size _ := Fields.part_le_size hpart
      omega
  | @element fs base i offset elements count k hreach hpart hread hk _ =>
      obtain ⟨hbase, rounds, hcheck⟩ := hreach.checked hok
      obtain ⟨elements', count', hread', hle⟩ :=
        Pointer.vec_of_check (Fields.check_parts hbase hcheck hpart) rfl
      obtain ⟨rfl, rfl⟩ : elements = elements' ∧ count = count' :=
        Prod.mk.inj (Option.some.inj (hread.symm.trans hread'))
      have hmul := Nat.mul_le_mul_right (env i).size (Nat.succ_le_of_lt hk)
      rw [Nat.succ_mul] at hmul
      omega

/-- **Soundness of the validator.**  The validator comes back on every payload, and where it
accepts one, everything that is reached from the root is in the payload exactly if the mirror of
the root is. -/
theorem checkBytes_sound_iff (env : ℕ → Fields) (root : Fields) (bytes : List UInt8) :
    (∀ rounds, bytes.length ≤ rounds → (checkArchive env root bytes rounds).Returned ∧
        checkArchive env root bytes rounds = checkArchive env root bytes bytes.length) ∧
      (checkArchive env root bytes bytes.length = .ok () →
        ((∀ fs base, Reaches env bytes root fs base → Inside env bytes fs base) ↔
          root.size ≤ bytes.length)) := by
  refine ⟨fun rounds h => checkArchive_returned env root h, fun hok => ⟨fun h => ?_, ?_⟩⟩
  · have hroot := (h root 0 .root).mirror
    rwa [Nat.zero_add] at hroot
  · intro hroot fs base hreach
    have hmirror := hreach.mirror_inside hok hroot
    obtain ⟨hbase, rounds, hcheck⟩ := hreach.checked hok
    refine ⟨hmirror, fun part offset hpart => ?_, fun offset hpart => ?_,
      fun p offset size align hpart helement => ?_⟩
    · have := Fields.part_le_size hpart
      omega
    · exact of_checkStringField (Fields.check_parts hbase hcheck hpart)
    · exact Pointer.vec_of_check (Fields.check_parts hbase hcheck hpart) helement

/-- A struct of a `u64` alone is accepted on an empty payload. -/
theorem empty_accepted :
    checkArchive (fun _ => .nil) (.scalar .u64 .nil) [] 0 = .ok () ∧
      ¬ Inside (fun _ => .nil) [] (.scalar .u64 .nil) 0 :=
  ⟨rfl, fun h => absurd h.mirror (by decide)⟩

end RustBinary.Archive
