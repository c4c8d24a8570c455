import RustBinary.Archive.Accessors
import RustBinary.Archive.Contents
import RustBinary.Archive.Placement

/-!
# Reading an archive back

What the accessors of the mirror show of a value, on a payload at an address that every alignment
divides.  A value that is stored, with its leaves where the mirror has them, is shown
as it is (`Record.shown_of_stored`); so the archive of a value is read back if nothing waits when
the elements of a `Vec` bring pointers with them (`matched_iff`).
-/

namespace RustBinary.Archive

open Lib Lib.Outcome

variable {env : ℕ → Fields} {fs : Fields} {bytes : List UInt8}

/-! ## What the accessors show -/

mutual

/-- The mirror at the address `base` shows the fields of a record; `offset` is the end of the
fields in front. -/
def Record.Shown (bytes : List UInt8) {fs : Fields} : Record env fs → ℕ → ℕ → Prop
  | .nil, _, _ => True
  | @Record.scalar _ s _ value tail, base, offset =>
      slice bytes (base + roundUp offset s.size) (base + roundUp offset s.size + s.size)
          = some value.toList ∧
        tail.Shown bytes base (roundUp offset s.size + s.size)
  | .pointer body tail, base, offset =>
      body.Shown bytes (base + roundUp offset ptrSize) ∧
        tail.Shown bytes base (roundUp offset ptrSize + ptrSize)
  | @Record.nested _ inner _ head tail, base, offset =>
      head.Shown bytes (base + roundUp offset inner.align) 0 ∧
        tail.Shown bytes base (roundUp offset inner.align + inner.size)

/-- The pointer at the address `field` shows a string or a vector. -/
def Body.Shown (bytes : List UInt8) {p : Pointer} : Body env p → ℕ → Prop
  | .string text, field => readString bytes field = some (toUtf8 text)
  | @Body.vecScalar _ s elements, field =>
      ∃ base, readVec bytes s.size field = some (base, elements.length) ∧
        slice bytes base (base + elements.length * s.size)
          = some (elements.map Vector.toList).flatten
  | @Body.vecStruct _ i elements, field =>
      ∃ base, readVec bytes (env i).align field = some (base, elements.length) ∧
        elements.Shown bytes base

/-- The mirrors from the address `base` on show the elements of a `Vec`. -/
def Elements.Shown (bytes : List UInt8) {fs : Fields} : Elements env fs → ℕ → Prop
  | .nil, _ => True
  | .cons head tail, base => head.Shown bytes base 0 ∧ tail.Shown bytes (base + fs.size)

end

mutual

/-- Every `Vec` of structs has a count that fits into a `u32`; the other bodies have, when the
payload is smaller than that. -/
def Record.CountsFit {fs : Fields} : Record env fs → Prop
  | .nil => True
  | .scalar _ tail => tail.CountsFit
  | .pointer body tail => body.CountsFit ∧ tail.CountsFit
  | .nested head tail => head.CountsFit ∧ tail.CountsFit

/-- The same for a body. -/
def Body.CountsFit {p : Pointer} : Body env p → Prop
  | .string _ => True
  | .vecScalar _ => True
  | .vecStruct elements => elements.length < 2 ^ 32 ∧ elements.CountsFit

/-- The same for the elements of a `Vec`. -/
def Elements.CountsFit {fs : Fields} : Elements env fs → Prop
  | .nil => True
  | .cons head tail => head.CountsFit ∧ tail.CountsFit

end

/-! ## Stored values are shown -/

lemma resolve_eq {field data : ℕ}
    (h : slice bytes field (field + 4) = some (leBytes 4 (data - field)))
    (hle : field ≤ data) (hdata : data < 2 ^ 31) : resolve bytes field = some data := by
  have hread : leNat (leBytes 4 (data - field)) = data - field := leNat_leBytes (by omega)
  have hlt : data - field < 2 ^ 31 := by omega
  rw [resolve, h, Option.bind_eq_bind, Option.bind_some, hread, if_pos hlt]
  congr 1
  omega

lemma bodyCount_eq {data count : ℕ}
    (h : slice bytes data (data + 4) = some (Writer.countBytes count)) (hcount : count < 2 ^ 32) :
    bodyCount bytes data = some count := by
  have hread : leNat (Writer.countBytes count) = count := by
    rw [Writer.countBytes, Nat.min_eq_left (by omega)]
    exact leNat_leBytes (by omega)
  rw [bodyCount, h, Option.bind_eq_bind, Option.bind_some, hread]

mutual

/-- A stored record is shown, if its leaves are where the mirror has them. -/
lemma Record.shown_of_stored (hlen : bytes.length < 2 ^ 31) :
    ∀ {fs : Fields} (r : Record env fs) {base offset start data : ℕ}, fs.align ∣ base →
      fs.Tight → fs.Starts start (base + offset) → fs.writtenEnd start ≤ data → r.Tight →
      r.CountsFit → r.Stored bytes start data → r.Shown bytes base offset
  | _, .nil, _, _, _, _, _, _, _, _, _, _, _ => trivial
  | _, @Record.scalar _ s rest value tail, base, offset, start, data, hbase, htight, hstart,
      hbehind, hbodies, hfit, h => by
      obtain ⟨hs, hrest⟩ := Fields.scalar_dvd hbase
      have hsame : roundUp start s.size = base + roundUp offset s.size := by
        rw [← roundUp_add _ _ hs]
        exact hstart s.size rfl
      obtain ⟨hvalue, htail⟩ := h
      rw [Fields.writtenEnd] at hbehind
      rw [hsame] at hvalue htail hbehind
      refine ⟨hvalue, Record.shown_of_stored hlen tail hrest htight ?_ hbehind hbodies hfit htail⟩
      rw [Nat.add_assoc]
      exact Fields.Starts.refl _ _
  | _, @Record.pointer _ p rest body tail, base, offset, start, data, hbase, htight, hstart,
      hbehind, hbodies, hfit, h => by
      obtain ⟨hs, hrest⟩ := Fields.pointer_dvd hbase
      have hsame : roundUp start ptrSize = base + roundUp offset ptrSize := by
        rw [← roundUp_add _ _ hs]
        exact hstart ptrSize rfl
      obtain ⟨hptr, hbody, htail⟩ := h
      rw [Fields.writtenEnd] at hbehind
      rw [hsame] at hptr htail hbehind
      have hend := rest.le_writtenEnd (base + roundUp offset ptrSize + ptrSize)
      have hle : base + roundUp offset ptrSize ≤ data := by omega
      refine ⟨Body.shown_of_stored hlen body hle hbodies.1 hfit.1 hptr hbody,
        Record.shown_of_stored hlen tail hrest htight ?_ (hbehind.trans (body.le_bodyEnd data))
          hbodies.2 hfit.2 htail⟩
      rw [Nat.add_assoc]
      exact Fields.Starts.refl _ _
  | _, @Record.nested _ inner rest head tail, base, offset, start, data, hbase, htight, hstart,
      hbehind, hbodies, hfit, h => by
      obtain ⟨hi, hrest⟩ := Fields.nested_dvd hbase
      obtain ⟨htight, htight', hgap⟩ := htight
      obtain ⟨hhead, htail⟩ := h
      have hend := rest.le_writtenEnd (inner.writtenEnd (roundUp start inner.align))
      have hbehind : rest.writtenEnd (inner.writtenEnd (roundUp start inner.align)) ≤ data :=
        hbehind
      have hinner : inner.align ∣ base + roundUp offset inner.align :=
        Nat.dvd_add hi (dvd_roundUp inner.align_pos)
      refine ⟨Record.shown_of_stored hlen head hinner htight ?_ (hend.trans hbehind) hbodies.1
          hfit.1 hhead,
        Record.shown_of_stored hlen tail hrest htight' ?_
          (hbehind.trans (head.le_bodiesEnd data)) hbodies.2 hfit.2 htail⟩
      · intro a ha
        have hhead : (Fields.nested inner rest).headAlign = some inner.align := by
          rw [Fields.headAlign, Option.mem_def.mp ha]
        rw [Nat.add_zero, ← roundUp_add _ _ hi, hstart inner.align hhead]
      · cases hhead : inner.headAlign with
        | some a =>
            have hsame : roundUp start inner.align = base + roundUp offset inner.align := by
              rw [← roundUp_add _ _ hi]
              exact hstart inner.align (by rw [Fields.headAlign, hhead]; rfl)
            rw [hsame, ← Nat.add_assoc]
            exact (Fields.starts_after (Fields.size_eq htight) hinner).mpr hgap
        | none =>
            -- the nested struct takes no space
            obtain ⟨hone, -, hends⟩ := Fields.empty_spec hhead
            have hsize : inner.size = 0 := by rw [Fields.size, (hends 0).2.1, roundUp_zero]
            rw [(hends _).1, hsize, hone, roundUp_one, roundUp_one, Nat.add_zero]
            exact fun a ha => hstart a (by rwa [Fields.headAlign, hhead])

lemma Body.shown_of_stored (hlen : bytes.length < 2 ^ 31) :
    ∀ {p : Pointer} (b : Body env p) {field data : ℕ}, field ≤ data → b.Tight → b.CountsFit →
      slice bytes field (field + 4) = some (leBytes 4 (data - field)) →
      b.Stored bytes data → b.Shown bytes field
  | _, .string text, field, data, hle, _, _, hptr, h => by
      obtain ⟨hcount, htext⟩ := h
      have hinside := (slice_eq_some.mp htext).2.1
      have hresolve := resolve_eq hptr hle (by omega)
      show readString bytes field = _
      rw [readString, hresolve, Option.bind_eq_bind, Option.bind_some,
        bodyCount_eq hcount (by omega), Option.bind_some]
      exact htext
  | _, @Body.vecScalar _ s elements, field, data, hle, _, _, hptr, h => by
      obtain ⟨hcount, helements⟩ := h
      have hinside := (slice_eq_some.mp helements).2.1
      have hround := le_roundUp (data + 4) s.size
      have hsize := Nat.le_mul_of_pos_right elements.length s.isAlign_size.pos
      have hresolve := resolve_eq hptr hle (by omega)
      refine ⟨roundUp (data + 4) s.size, ?_, helements⟩
      rw [readVec, hresolve, Option.bind_eq_bind, Option.bind_some,
        bodyCount_eq hcount (by omega), Option.bind_some]
  | _, @Body.vecStruct _ i elements, field, data, hle, htight, hfit, hptr, h => by
      obtain ⟨hcount, helements⟩ := h
      obtain ⟨hfields, hnext, hbodies⟩ := htight
      have hinside := (slice_eq_some.mp hcount).2.1
      have hresolve := resolve_eq hptr hle (by omega)
      refine ⟨roundUp (data + 4) (env i).align, ?_, ?_⟩
      · rw [readVec, hresolve, Option.bind_eq_bind, Option.bind_some,
          bodyCount_eq hcount hfit.1, Option.bind_some]
      · exact Elements.shown_of_stored hlen elements (dvd_roundUp (env i).align_pos)
          (fun hone => ⟨hfields hone, Fields.Starts.refl _ _⟩) hnext (Nat.le_refl _) hbodies
          hfit.2 helements

lemma Elements.shown_of_stored (hlen : bytes.length < 2 ^ 31) :
    ∀ {fs : Fields} (es : Elements env fs) {base start data : ℕ}, fs.align ∣ base →
      (1 ≤ es.length → fs.Tight ∧ fs.Starts start base) →
      (2 ≤ es.length → ∀ a ∈ fs.headAlign, fs.gap < a) → es.skeletonsEnd start ≤ data →
      es.Tight → es.CountsFit → es.Stored bytes start data → es.Shown bytes base
  | _, .nil, _, _, _, _, _, _, _, _, _, _ => trivial
  | fs, .cons head tail, base, start, data, hbase, hone, htwo, hbehind, hbodies, hfit, h => by
      have hend := tail.le_skeletonsEnd (fs.writtenEnd start)
      have hbehind : tail.skeletonsEnd (fs.writtenEnd start) ≤ data := hbehind
      obtain ⟨htight, hstart⟩ := hone (Nat.succ_pos _)
      refine ⟨Record.shown_of_stored hlen head hbase htight hstart (hend.trans hbehind) hbodies.1
          hfit.1 h.1,
        Elements.shown_of_stored hlen tail (Nat.dvd_add hbase fs.align_dvd_size) ?_ ?_
          (hbehind.trans (head.le_bodiesEnd data)) hbodies.2 hfit.2 h.2⟩
      · intro hlen
        exact ⟨htight, (starts_next hbase htight hstart).mpr (htwo (Nat.succ_le_succ hlen))⟩
      · exact fun hlen => htwo (Nat.le_succ_of_le hlen)

end

/-! ## The archive -/

/-- **Placeholders and bodies.**  The bodies phase patches every placeholder with the body of its
own field, with an empty queue at the end, exactly if nothing waits in the queue when the elements
of a `Vec` bring pointers with them; and then the mirror of the archive shows the value, if the
leaves are where the mirror has them and the distances and counts fit into their words. -/
theorem readBack_iff (value : Record env fs) :
    ((Matched (archivePops value) ∧ ∃ w, writeArchive value = .ok w ∧ w.positions = []) ↔
        value.QueueSafe 0) ∧
      (value.QueueSafe 0 → (∀ s ∈ archiveSkeletons value, s.InPlace) → value.CountsFit →
        ∃ payload, toArchive value = .ok payload ∧
          (payload.length < 2 ^ 31 → value.Shown payload 0 0)) := by
  obtain ⟨w, hok, hlen, hempty⟩ := writeArchive_spec value
  obtain ⟨hstop, hqueue⟩ := value.writeSkeleton_spec Writer.new
  change (value.writeSkeleton Writer.new).positions = fs.placeholders 0 at hqueue
  change (value.writeSkeleton Writer.new).bytes.length = fs.writtenEnd 0 at hstop
  have hnil : (value.writeSkeleton Writer.new).positions = fs.placeholders 0 ++ [] := by
    rw [hqueue, List.append_nil]
  have hspec := value.queueSpec _ _ _ hnil (fs.length_placeholders 0) value.ready
  constructor
  · rw [archivePops, hqueue, hspec.matched_iff]
    exact and_iff_left ⟨w, hok, hempty⟩
  · intro hsafe hplaced hfit
    obtain ⟨htight, hbodies⟩ := (archiveSkeletons_inPlace_iff value).mp hplaced
    obtain ⟨-, hstored⟩ := value.writeBodies_stored
      ⟨hnil, value.ready.inside, hstop.ge, hsafe, (value.writeSkeleton_inline Writer.new).2⟩ hok
    refine ⟨w.bytes, by rw [toArchive, hok, ok_bind]; rfl, fun hshort => ?_⟩
    exact value.shown_of_stored hshort (Nat.dvd_zero _) htight (Fields.Starts.refl fs 0)
      hstop.ge hbodies hfit hstored

/-- A `Vec` of structs with a string each, in front of a string. -/
def listFields : Fields := .pointer (.vecStruct 0) (.pointer .string .nil)

def listValue : Record (fun _ => .pointer .string .nil) listFields :=
  .pointer (.vecStruct (.cons (.pointer (.string "a") .nil) .nil))
    (.pointer (.string "b") .nil)

/-- The string of the element goes to the pointer behind the `Vec`, and the string behind the
`Vec` to the pointer of the element. -/
theorem listValue_swapped :
    archivePops listValue = [(0, 0), (4, 12), (12, 4)] ∧
      toArchive listValue = .ok [8, 0, 0, 0, 12, 0, 0, 0, 1, 0, 0, 0, 9, 0, 0, 0,
        1, 0, 0, 0, 97, 1, 0, 0, 0, 98] ∧
      readString [8, 0, 0, 0, 12, 0, 0, 0, 1, 0, 0, 0, 9, 0, 0, 0,
        1, 0, 0, 0, 97, 1, 0, 0, 0, 98] 4 = some (toUtf8 "a") := by
  decide

end RustBinary.Archive
