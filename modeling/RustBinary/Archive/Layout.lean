import RustBinary.Archive.Lengths

/-!
# The skeleton and the mirror

A skeleton is written field by field, each from the end of the one in front rounded up to its
alignment; the tail padding that the mirror has at the end of a struct is not written.  So the
leaves of a skeleton are at the addresses of the mirror exactly if, at the end of every nested
struct, the alignment of what is written next makes up for the padding (`writtenLeaves_eq_iff`).
-/

namespace RustBinary.Archive.Fields

open Lib

/-! ## Addresses -/

/-- The positions of the leaves of a skeleton that is written from the length `start` on. -/
def writtenLeaves : Fields → ℕ → List ℕ
  | nil, _ => []
  | scalar s rest, start =>
      roundUp start s.size :: rest.writtenLeaves (roundUp start s.size + s.size)
  | pointer _ rest, start =>
      roundUp start ptrSize :: rest.writtenLeaves (roundUp start ptrSize + ptrSize)
  | nested inner rest, start =>
      inner.writtenLeaves (roundUp start inner.align) ++
        rest.writtenLeaves (inner.writtenEnd (roundUp start inner.align))

/-- The positions of the leaves when a struct is walked from the address `start` on, as the
validator does: a nested struct is passed over by its size. -/
def walkLeaves : Fields → ℕ → List ℕ
  | nil, _ => []
  | scalar s rest, start =>
      roundUp start s.size :: rest.walkLeaves (roundUp start s.size + s.size)
  | pointer _ rest, start =>
      roundUp start ptrSize :: rest.walkLeaves (roundUp start ptrSize + ptrSize)
  | nested inner rest, start =>
      inner.walkLeaves (roundUp start inner.align) ++
        rest.walkLeaves (roundUp start inner.align + inner.size)

/-- Where the walk ends. -/
def walkEnd : Fields → ℕ → ℕ
  | nil, start => start
  | scalar s rest, start => rest.walkEnd (roundUp start s.size + s.size)
  | pointer _ rest, start => rest.walkEnd (roundUp start ptrSize + ptrSize)
  | nested inner rest, start => rest.walkEnd (roundUp start inner.align + inner.size)

variable {fs : Fields}

/-! ## Aligned addresses -/

lemma scalar_dvd {s : Scalar} {rest : Fields} {base : ℕ} (h : (scalar s rest).align ∣ base) :
    s.size ∣ base ∧ rest.align ∣ base :=
  ⟨(s.isAlign_size.dvd_max_left rest.isAlign_align).trans h,
    (s.isAlign_size.dvd_max_right rest.isAlign_align).trans h⟩

lemma pointer_dvd {p : Pointer} {rest : Fields} {base : ℕ} (h : (pointer p rest).align ∣ base) :
    ptrSize ∣ base ∧ rest.align ∣ base :=
  ⟨(isAlign_ptrSize.dvd_max_left rest.isAlign_align).trans h,
    (isAlign_ptrSize.dvd_max_right rest.isAlign_align).trans h⟩

lemma nested_dvd {inner rest : Fields} {base : ℕ} (h : (nested inner rest).align ∣ base) :
    inner.align ∣ base ∧ rest.align ∣ base :=
  ⟨(inner.isAlign_align.dvd_max_left rest.isAlign_align).trans h,
    (inner.isAlign_align.dvd_max_right rest.isAlign_align).trans h⟩

/-- The validator walks the addresses of the mirror, at an aligned address. -/
lemma mirrorLeaves_eq_walkLeaves {base : ℕ} (h : fs.align ∣ base) (offset : ℕ) :
    fs.mirrorLeaves base offset = fs.walkLeaves (base + offset) := by
  induction fs generalizing base offset with
  | nil => rfl
  | scalar s rest ih =>
      obtain ⟨hs, hrest⟩ := scalar_dvd h
      rw [mirrorLeaves, walkLeaves, ih hrest, roundUp_add _ _ hs, Nat.add_assoc]
  | pointer p rest ih =>
      obtain ⟨hs, hrest⟩ := pointer_dvd h
      rw [mirrorLeaves, walkLeaves, ih hrest, roundUp_add _ _ hs, Nat.add_assoc]
  | nested inner rest ihi ih =>
      obtain ⟨hi, hrest⟩ := nested_dvd h
      have hinner : inner.align ∣ base + roundUp offset inner.align :=
        Nat.dvd_add hi (dvd_roundUp inner.align_pos)
      rw [mirrorLeaves, walkLeaves, ihi hinner, ih hrest, roundUp_add _ _ hi, Nat.add_zero,
        Nat.add_assoc]

lemma walkEnd_eq {base : ℕ} (h : fs.align ∣ base) (offset : ℕ) :
    fs.walkEnd (base + offset) = base + fs.mirrorEnd offset := by
  induction fs generalizing offset with
  | nil => rfl
  | scalar s rest ih =>
      obtain ⟨hs, hrest⟩ := scalar_dvd h
      rw [walkEnd, mirrorEnd, ← ih hrest, roundUp_add _ _ hs, Nat.add_assoc]
  | pointer p rest ih =>
      obtain ⟨hs, hrest⟩ := pointer_dvd h
      rw [walkEnd, mirrorEnd, ← ih hrest, roundUp_add _ _ hs, Nat.add_assoc]
  | nested inner rest ihi ih =>
      obtain ⟨hi, hrest⟩ := nested_dvd h
      rw [walkEnd, mirrorEnd, ← size, ← ih hrest, roundUp_add _ _ hi, Nat.add_assoc]

lemma writtenEnd_add {base : ℕ} (h : fs.align ∣ base) (offset : ℕ) :
    fs.writtenEnd (base + offset) = base + fs.writtenEnd offset := by
  induction fs generalizing offset with
  | nil => rfl
  | scalar s rest ih =>
      obtain ⟨hs, hrest⟩ := scalar_dvd h
      rw [writtenEnd, writtenEnd, ← ih hrest, roundUp_add _ _ hs, Nat.add_assoc]
  | pointer p rest ih =>
      obtain ⟨hs, hrest⟩ := pointer_dvd h
      rw [writtenEnd, writtenEnd, ← ih hrest, roundUp_add _ _ hs, Nat.add_assoc]
  | nested inner rest ihi ih =>
      obtain ⟨hi, hrest⟩ := nested_dvd h
      rw [writtenEnd, writtenEnd, ← ih hrest, roundUp_add _ _ hi, ihi hi]

/-- Both walks find the same number of leaves. -/
lemma length_writtenLeaves (fs : Fields) (start start' : ℕ) :
    (fs.writtenLeaves start).length = (fs.walkLeaves start').length := by
  induction fs generalizing start start' with
  | nil => rfl
  | scalar s rest ih =>
      rw [writtenLeaves, walkLeaves, List.length_cons, List.length_cons, ih]
  | pointer p rest ih =>
      rw [writtenLeaves, walkLeaves, List.length_cons, List.length_cons, ih]
  | nested inner rest ihi ih =>
      rw [writtenLeaves, walkLeaves, List.length_append, List.length_append, ihi, ih]

/-! ## Padding -/

/-- The tail padding of the mirror that is missing behind a skeleton. -/
def gap (fs : Fields) : ℕ := fs.size - fs.writtenEnd 0

/-- The alignment that is restored before the first leaf is written; a struct without leaves
does not count. -/
def headAlign : Fields → Option ℕ
  | nil => none
  | scalar s _ => some s.size
  | pointer _ _ => some ptrSize
  | nested inner rest =>
      match inner.headAlign with
      | some _ => some inner.align
      | none => rest.headAlign

/-- Behind every nested struct the padding that is missing is smaller than the alignment of what
is written next. -/
def Tight : Fields → Prop
  | nil => True
  | scalar _ rest => rest.Tight
  | pointer _ rest => rest.Tight
  | nested inner rest => inner.Tight ∧ rest.Tight ∧ ∀ a ∈ rest.headAlign, inner.gap < a

instance decidableTight : (fs : Fields) → Decidable fs.Tight
  | nil => instDecidableTrue
  | scalar _ rest => decidableTight rest
  | pointer _ rest => decidableTight rest
  | nested inner rest =>
      have := decidableTight inner
      have := decidableTight rest
      inferInstanceAs (Decidable (inner.Tight ∧ rest.Tight ∧ ∀ a ∈ rest.headAlign, inner.gap < a))

/-- The first leaf is written at the same address from both lengths. -/
def Starts (fs : Fields) (start start' : ℕ) : Prop :=
  ∀ a ∈ fs.headAlign, roundUp start a = roundUp start' a

lemma Starts.refl (fs : Fields) (start : ℕ) : fs.Starts start start := fun _ _ => rfl

/-- The alignment in front of the first leaf is an alignment that the struct has. -/
lemma headAlign_spec {a : ℕ} (h : a ∈ fs.headAlign) : IsAlign a ∧ a ∣ fs.align := by
  induction fs with
  | nil => simp [headAlign] at h
  | scalar s rest ih =>
      obtain rfl := Option.some.inj h
      exact ⟨s.isAlign_size, s.isAlign_size.dvd_max_left rest.isAlign_align⟩
  | pointer p rest ih =>
      obtain rfl := Option.some.inj h
      exact ⟨isAlign_ptrSize, isAlign_ptrSize.dvd_max_left rest.isAlign_align⟩
  | nested inner rest ihi ih =>
      rw [headAlign] at h
      split at h
      · obtain rfl := Option.some.inj h
        exact ⟨inner.isAlign_align, inner.isAlign_align.dvd_max_left rest.isAlign_align⟩
      · obtain ⟨halign, hdvd⟩ := ih h
        exact ⟨halign, hdvd.trans (inner.isAlign_align.dvd_max_right rest.isAlign_align)⟩

/-- A struct without leaves takes no space. -/
lemma empty_spec (h : fs.headAlign = none) :
    fs.align = 1 ∧ fs.Tight ∧ ∀ start, fs.writtenEnd start = start ∧ fs.mirrorEnd start = start ∧
      fs.walkEnd start = start ∧ fs.writtenLeaves start = [] ∧ fs.walkLeaves start = [] := by
  induction fs with
  | nil => exact ⟨rfl, trivial, fun start => ⟨rfl, rfl, rfl, rfl, rfl⟩⟩
  | scalar s rest ih => cases h
  | pointer p rest ih => cases h
  | nested inner rest ihi ih =>
      rw [headAlign] at h
      split at h
      · cases h
      · next hinner =>
          obtain ⟨halign, htight, hends⟩ := ihi hinner
          obtain ⟨halign', htight', hends'⟩ := ih h
          have hsize : inner.size = 0 := by
            rw [size, (hends 0).2.1, roundUp_zero]
          refine ⟨by rw [align, halign, halign', Nat.max_self], ⟨htight, htight', by simp [h]⟩,
            fun start => ?_⟩
          obtain ⟨h₁, h₂, h₃, h₄, h₅⟩ := hends (roundUp start inner.align)
          rw [writtenEnd, mirrorEnd, ← size, walkEnd, writtenLeaves, walkLeaves, h₁, h₄, h₅, hsize,
            Nat.add_zero, halign, roundUp_one, List.nil_append, List.nil_append]
          exact hends' start

/-! ## Leaves in place -/

/-- From lengths with the same first address, a skeleton ends at the same length. -/
lemma writtenEnd_congr {a start start' : ℕ} (ha : a ∈ fs.headAlign)
    (h : roundUp start a = roundUp start' a) : fs.writtenEnd start = fs.writtenEnd start' := by
  induction fs generalizing start start' with
  | nil => simp [headAlign] at ha
  | scalar s rest ih =>
      obtain rfl := Option.some.inj ha
      rw [writtenEnd, writtenEnd, h]
  | pointer p rest ih =>
      obtain rfl := Option.some.inj ha
      rw [writtenEnd, writtenEnd, h]
  | nested inner rest ihi ih =>
      rw [headAlign] at ha
      split at ha
      · obtain rfl := Option.some.inj ha
        rw [writtenEnd, writtenEnd, h]
      · next hinner =>
          obtain ⟨halign, -, hends⟩ := empty_spec hinner
          rw [writtenEnd, writtenEnd, (hends _).1, (hends _).1, halign, roundUp_one, roundUp_one]
          exact ih ha h

/-- Behind a nested struct the next leaf is in place if its alignment makes up for the padding. -/
lemma starts_after {inner rest : Fields}
    (hsize : inner.size = roundUp (inner.writtenEnd 0) inner.align) {base : ℕ}
    (hbase : inner.align ∣ base) :
    rest.Starts (inner.writtenEnd base) (base + inner.size) ↔
      ∀ a ∈ rest.headAlign, inner.gap < a := by
  have hend : inner.writtenEnd base = base + inner.writtenEnd 0 := writtenEnd_add hbase 0
  have hnext : base + inner.size = roundUp (base + inner.writtenEnd 0) inner.align := by
    rw [roundUp_add _ _ hbase, hsize]
  refine forall_congr' fun a => imp_congr_right fun ha => ?_
  rw [hend, hnext, (headAlign_spec ha).1.roundUp_closes inner.isAlign_align, ← hnext,
    Nat.add_sub_add_left, gap]

/-- Behind a skeleton in place an alignment that brings both starts together, and that the struct
divides, brings both ends together. -/
lemma roundUp_writtenEnd {b start start' : ℕ} (hb : IsAlign b) (halign : fs.align ∣ b)
    (htight : fs.Tight) (hstart : fs.Starts start start') (h : roundUp start b = roundUp start' b) :
    roundUp (fs.writtenEnd start) b = roundUp (fs.walkEnd start') b := by
  induction fs generalizing start start' b with
  | nil => exact h
  | scalar s rest ih =>
      rw [writtenEnd, walkEnd, hstart s.size rfl]
      exact ih hb (scalar_dvd halign).2 htight (Starts.refl _ _) rfl
  | pointer p rest ih =>
      rw [writtenEnd, walkEnd, hstart ptrSize rfl]
      exact ih hb (pointer_dvd halign).2 htight (Starts.refl _ _) rfl
  | nested inner rest ihi ih =>
      obtain ⟨hinner, hrest⟩ := nested_dvd halign
      obtain ⟨htight, htight', hgap⟩ := htight
      cases hhead : inner.headAlign with
      | some a =>
          have hsame : roundUp start inner.align = roundUp start' inner.align :=
            hstart inner.align (by rw [headAlign, hhead]; rfl)
          rw [writtenEnd, walkEnd, hsame]
          obtain ⟨base, hbase⟩ : ∃ base, base = roundUp start' inner.align := ⟨_, rfl⟩
          have hdvd : inner.align ∣ base := hbase ▸ dvd_roundUp inner.align_pos
          -- the size is the written end, rounded up
          have hsize : ∀ {base}, inner.align ∣ base →
              roundUp (inner.writtenEnd base) inner.align = base + inner.size := by
            intro base hdvd
            rw [ihi inner.isAlign_align (Nat.dvd_refl _) htight (Starts.refl _ base) rfl, size,
              ← roundUp_add _ _ hdvd, ← walkEnd_eq hdvd, Nat.add_zero]
          have hzero := hsize (Nat.dvd_zero inner.align)
          rw [Nat.zero_add] at hzero
          rw [← hbase]
          refine ih hb hrest htight' ((starts_after hzero.symm hdvd).mpr hgap) ?_
          rw [← hsize hdvd, roundUp_roundUp inner.align_pos hb.pos hinner]
      | none =>
          obtain ⟨hone, -, hends⟩ := empty_spec hhead
          have hsize : inner.size = 0 := by rw [size, (hends 0).2.1, roundUp_zero]
          rw [writtenEnd, walkEnd, (hends _).1, hone, roundUp_one, roundUp_one, hsize, Nat.add_zero]
          refine ih hb hrest htight' (fun a ha => hstart a ?_) h
          rwa [headAlign, hhead]

/-- The size of a struct in place is its written end, rounded up. -/
lemma size_eq (h : fs.Tight) : fs.size = roundUp (fs.writtenEnd 0) fs.align := by
  have hwalk : fs.walkEnd (0 + 0) = 0 + fs.mirrorEnd 0 := walkEnd_eq (Nat.dvd_zero _) 0
  rw [Nat.zero_add, Nat.zero_add] at hwalk
  rw [roundUp_writtenEnd fs.isAlign_align (Nat.dvd_refl _) h (Starts.refl _ 0) rfl, hwalk, size]

/-- When the leaves of a skeleton are where the walk finds them. -/
lemma writtenLeaves_eq_iff {start start' : ℕ} :
    fs.writtenLeaves start = fs.walkLeaves start' ↔ fs.Tight ∧ fs.Starts start start' := by
  induction fs generalizing start start' with
  | nil => simp [writtenLeaves, walkLeaves, Tight, Starts, headAlign]
  | scalar s rest ih =>
      have hstarts : (scalar s rest).Starts start start' ↔
          roundUp start s.size = roundUp start' s.size := by simp [Starts, headAlign]
      rw [writtenLeaves, walkLeaves, List.cons.injEq, hstarts, and_comm]
      refine and_congr_left fun h => ?_
      rw [h, ih]
      exact and_iff_left (Starts.refl _ _)
  | pointer p rest ih =>
      have hstarts : (pointer p rest).Starts start start' ↔
          roundUp start ptrSize = roundUp start' ptrSize := by simp [Starts, headAlign]
      rw [writtenLeaves, walkLeaves, List.cons.injEq, hstarts, and_comm]
      refine and_congr_left fun h => ?_
      rw [h, ih]
      exact and_iff_left (Starts.refl _ _)
  | nested inner rest ihi ih =>
      rw [writtenLeaves, walkLeaves]
      cases hhead : inner.headAlign with
      | some a =>
          have hsplit : ∀ {x x' y y' : List ℕ}, x.length = x'.length →
              (x ++ y = x' ++ y' ↔ x = x' ∧ y = y') := fun hlen =>
            ⟨fun h => List.append_inj h hlen, fun ⟨h, h'⟩ => by rw [h, h']⟩
          have hstarts : (nested inner rest).Starts start start' ↔
              roundUp start inner.align = roundUp start' inner.align := by
            simp [Starts, headAlign, hhead]
          have hinner : inner.Starts (roundUp start inner.align) (roundUp start' inner.align) ↔
              roundUp start inner.align = roundUp start' inner.align := by
            have hdvd : ∀ n, a ∣ roundUp n inner.align := fun n =>
              (headAlign_spec hhead).2.trans (dvd_roundUp inner.align_pos)
            simp [Starts, hhead, roundUp_of_dvd (hdvd _)]
          rw [hsplit (inner.length_writtenLeaves _ _), ihi, hstarts, hinner]
          constructor
          · rintro ⟨⟨htight, hsame⟩, hrest⟩
            rw [hsame, ih, starts_after (size_eq htight) (dvd_roundUp inner.align_pos)] at hrest
            exact ⟨⟨htight, hrest⟩, hsame⟩
          · rintro ⟨⟨htight, hrest⟩, hsame⟩
            rw [hsame, ih, starts_after (size_eq htight) (dvd_roundUp inner.align_pos)]
            exact ⟨⟨htight, rfl⟩, hrest⟩
      | none =>
          obtain ⟨hone, htight, hends⟩ := empty_spec hhead
          have hsize : inner.size = 0 := by rw [size, (hends 0).2.1, roundUp_zero]
          have hgap : ∀ a ∈ rest.headAlign, inner.gap < a := by
            intro a ha
            rw [gap, hsize, Nat.zero_sub]
            exact (headAlign_spec ha).1.pos
          have hstarts : (nested inner rest).Starts start start' ↔ rest.Starts start start' := by
            simp [Starts, headAlign, hhead]
          rw [(hends _).2.2.2.1, (hends _).2.2.2.2, (hends _).1, hone, roundUp_one, roundUp_one,
            hsize, Nat.add_zero, List.nil_append, List.nil_append, ih, hstarts]
          exact and_congr_left fun _ => ⟨fun h => ⟨htight, h, hgap⟩, fun h => h.2.1⟩

end RustBinary.Archive.Fields
