import RustBinary.Archive.Access
import RustBinary.Archive.Build
import RustBinary.Archive.ReadBack

/-!
# What is written is accepted

`check_at` walks what `to_archive` has written.  The only thing it can miss is the tail padding of
the last element of a `Vec` of structs, when no bytes follow: `Roomy` says that they do, or that no
padding is missing, and `buildRecord_iff` that then, and only then, the value is archived.
-/

namespace RustBinary.Archive

open Lib Lib.Outcome

variable {env : ℕ → Fields} {fs : Fields} {bytes : List UInt8}

/-! ## Elements with room -/

mutual

/-- The mirrors of the elements of every `Vec` of structs end in front of `limit`; the bodies are
written from the length `data` on. -/
def Record.Roomy (limit : ℕ) {fs : Fields} : Record env fs → ℕ → Prop
  | .nil, _ => True
  | .scalar _ tail, data => tail.Roomy limit data
  | .pointer body tail, data => body.Roomy limit data ∧ tail.Roomy limit (body.bodyEnd data)
  | .nested head tail, data => head.Roomy limit data ∧ tail.Roomy limit (head.bodiesEnd data)

/-- The same for a body. -/
def Body.Roomy (limit : ℕ) {p : Pointer} : Body env p → ℕ → Prop
  | .string _, _ => True
  | .vecScalar _, _ => True
  | @Body.vecStruct _ i elements, data =>
      roundUp (data + 4) (env i).align + elements.length * (env i).size ≤ limit ∧
        elements.Roomy limit (elements.skeletonsEnd (roundUp (data + 4) (env i).align))

/-- The same for the bodies of the elements. -/
def Elements.Roomy (limit : ℕ) {fs : Fields} : Elements env fs → ℕ → Prop
  | .nil, _ => True
  | .cons head tail, data => head.Roomy limit data ∧ tail.Roomy limit (head.bodiesEnd data)

end

/-! ## The checks of one body -/

lemma checkedField_eq {field data count : ℕ} (hptr : resolve bytes field = some data)
    (hcount : slice bytes data (data + 4) = some (Writer.countBytes count)) :
    checkedField bytes field = some data := by
  have hinside := (slice_eq_some.mp hcount).2.1
  rw [checkedField, hptr, Option.bind_eq_bind, Option.bind_some, if_pos hinside]

lemma checkStringField_of {field data : ℕ} {text : String}
    (hlen : bytes.length < 2 ^ 31) (hptr : resolve bytes field = some data)
    (hcount : slice bytes data (data + 4) = some (Writer.countBytes (toUtf8 text).length))
    (htext : slice bytes (data + 4) (data + 4 + (toUtf8 text).length) = some (toUtf8 text)) :
    checkStringField bytes field = .ok () := by
  have hinside := (slice_eq_some.mp htext).2.1
  have hsum : checkedAdd (data + 4) (toUtf8 text).length
      = some (data + 4 + (toUtf8 text).length) := by
    rw [checkedAdd, if_pos (by rw [u64Max]; omega)]
  rw [checkStringField, checkedField_eq hptr hcount, okOr_some, ok_bind,
    bodyCount_eq hcount (by omega), okOr_some, ok_bind]
  dsimp only
  rw [hsum, okOr_some, ok_bind, require_of hinside, ok_bind, htext, orPanic_some, ok_bind,
    require_of]
  rw [fromUtf8_toUtf8]
  rfl

/-- The body of a `Vec` is checked if its elements are in the payload. -/
lemma checkVecBody_eq_ok_iff {field data count size align : ℕ} {out : ℕ × ℕ}
    (hlen : bytes.length < 2 ^ 31) (hptr : resolve bytes field = some data)
    (hcount : slice bytes data (data + 4) = some (Writer.countBytes count))
    (hfit : count < 2 ^ 32) :
    checkVecBody bytes field size align = .ok out ↔
      roundUp (data + 4) align + count * size ≤ bytes.length ∧
        out = (count, roundUp (data + 4) align) := by
  rw [checkVecBody, checkedField_eq hptr hcount, okOr_some, ok_bind, bodyCount_eq hcount hfit,
    okOr_some, ok_bind]
  constructor
  · intro h
    obtain ⟨total, htotal, h⟩ := bind_eq_ok.mp h
    obtain ⟨stop, hstop, h⟩ := bind_eq_ok.mp h
    obtain rfl := checkedMul_eq_some (okOr_eq_ok.mp htotal)
    obtain rfl := checkedAdd_eq_some (okOr_eq_ok.mp hstop)
    obtain ⟨_, hinside, hout⟩ := bind_eq_ok.mp h
    exact ⟨require_eq_ok.mp hinside, (Outcome.ok.inj hout).symm⟩
  · rintro ⟨hinside, rfl⟩
    have htotal : checkedMul count size = some (count * size) := by
      rw [checkedMul, if_pos (by rw [u64Max]; omega)]
    have hstop : checkedAdd (roundUp (data + 4) align) (count * size)
        = some (roundUp (data + 4) align + count * size) := by
      rw [checkedAdd, if_pos (by rw [u64Max]; omega)]
    rw [htotal, okOr_some, ok_bind]
    dsimp only
    rw [hstop, okOr_some, ok_bind, require_of hinside, ok_bind]
    rfl

/-! ## The walk over a value -/

/-- The elements of a `Vec` of structs are checked in one round less. -/
lemma checkVecNested_iff {field data count rounds i : ℕ} (hlen : bytes.length < 2 ^ 31)
    (hptr : resolve bytes field = some data)
    (hcount : slice bytes data (data + 4) = some (Writer.countBytes count)) (hfit : count < 2 ^ 32) :
    checkVecNested bytes (checkAt env bytes rounds i) field (env i).size (env i).align = .ok () ↔
      roundUp (data + 4) (env i).align + count * (env i).size ≤ bytes.length ∧
        checkElements (checkAt env bytes rounds i) (roundUp (data + 4) (env i).align)
          (env i).size count 0 = .ok () := by
  rw [checkVecNested, bind_eq_ok]
  constructor
  · rintro ⟨out, hbody, helements⟩
    obtain ⟨hinside, rfl⟩ := (checkVecBody_eq_ok_iff hlen hptr hcount hfit).mp hbody
    exact ⟨hinside, helements⟩
  · rintro ⟨hinside, helements⟩
    exact ⟨_, (checkVecBody_eq_ok_iff hlen hptr hcount hfit).mpr ⟨hinside, rfl⟩, helements⟩

mutual

/-- The fields of a record in place are accepted if the elements of its bodies have room; `at` is
the end of the fields in front. -/
lemma Record.check_iff (hlen : bytes.length < 2 ^ 31) :
    ∀ {fs : Fields} (r : Record env fs) (rounds : ℕ) {start offset data : ℕ}, fs.Tight →
      fs.Starts start offset → fs.writtenEnd start ≤ data → r.Tight → r.CountsFit →
      bytes.length ≤ rounds + offset → r.Stored bytes start data →
      (fs.check env bytes (checkAt env bytes rounds) offset = .ok () ↔
        r.Roomy bytes.length data)
  | _, .nil, _, _, _, _, _, _, _, _, _, _, _ => iff_of_true rfl trivial
  | _, @Record.scalar _ s rest value tail, rounds, start, offset, data, htight, hstart, hbehind,
      hbodies, hfit, hrounds, h => by
      have hsame : roundUp start s.size = roundUp offset s.size := hstart s.size rfl
      obtain ⟨-, htail⟩ := h
      rw [Fields.writtenEnd] at hbehind
      rw [hsame] at htail hbehind
      have hround := le_roundUp offset s.size
      exact Record.check_iff hlen tail rounds htight (Fields.Starts.refl _ _) hbehind hbodies hfit
        (by omega) htail
  | _, @Record.pointer _ p rest body tail, rounds, start, offset, data, htight, hstart, hbehind,
      hbodies, hfit, hrounds, h => by
      have hsame : roundUp start ptrSize = roundUp offset ptrSize := hstart ptrSize rfl
      obtain ⟨hptr, hbody, htail⟩ := h
      rw [Fields.writtenEnd] at hbehind
      rw [hsame] at hptr htail hbehind
      have hend := rest.le_writtenEnd (roundUp offset ptrSize + ptrSize)
      have hround := le_roundUp offset ptrSize
      have hhead := Body.check_iff hlen body (show roundUp offset ptrSize ≤ data by omega)
        hbodies.1 hfit.1 (show bytes.length ≤ rounds + roundUp offset ptrSize by omega) hptr hbody
      have hrest := Record.check_iff hlen tail rounds htight
        (Fields.Starts.refl _ (roundUp offset ptrSize + ptrSize))
        (hbehind.trans (body.le_bodyEnd data)) hbodies.2 hfit.2 (by omega) htail
      rw [Fields.check, bind_eq_ok, Record.Roomy, ← hhead, ← hrest]
      exact ⟨fun ⟨_, hp, hr⟩ => ⟨hp, hr⟩, fun ⟨hp, hr⟩ => ⟨_, hp, hr⟩⟩
  | _, @Record.nested _ inner rest head tail, rounds, start, offset, data, htight, hstart, hbehind,
      hbodies, hfit, hrounds, h => by
      obtain ⟨htight, htight', hgap⟩ := htight
      obtain ⟨hhead, htail⟩ := h
      have hend := rest.le_writtenEnd (inner.writtenEnd (roundUp start inner.align))
      have hbehind : rest.writtenEnd (inner.writtenEnd (roundUp start inner.align)) ≤ data :=
        hbehind
      have hround := le_roundUp offset inner.align
      have hinner : inner.Starts (roundUp start inner.align) (roundUp offset inner.align) := by
        intro a ha
        have halign : (Fields.nested inner rest).headAlign = some inner.align := by
          rw [Fields.headAlign, Option.mem_def.mp ha]
        rw [hstart inner.align halign]
      have hrest : rest.Starts (inner.writtenEnd (roundUp start inner.align))
          (roundUp offset inner.align + inner.size) := by
        cases halign : inner.headAlign with
        | some a =>
            have hsame : roundUp start inner.align = roundUp offset inner.align :=
              hstart inner.align (by rw [Fields.headAlign, halign]; rfl)
            rw [hsame]
            exact (Fields.starts_after (Fields.size_eq htight)
              (dvd_roundUp inner.align_pos)).mpr hgap
        | none =>
            -- the nested struct takes no space
            obtain ⟨hone, -, hends⟩ := Fields.empty_spec halign
            have hsize : inner.size = 0 := by rw [Fields.size, (hends 0).2.1, roundUp_zero]
            rw [(hends _).1, hsize, hone, roundUp_one, roundUp_one, Nat.add_zero]
            exact fun a ha => hstart a (by rwa [Fields.headAlign, halign])
      have hfront := Record.check_iff hlen head rounds htight hinner
        (hend.trans hbehind) hbodies.1 hfit.1 (by omega) hhead
      have hback := Record.check_iff hlen tail rounds htight' hrest
        (hbehind.trans (head.le_bodiesEnd data)) hbodies.2 hfit.2 (by omega) htail
      rw [Fields.check, bind_eq_ok, Record.Roomy, ← hfront, ← hback]
      exact ⟨fun ⟨_, hp, hr⟩ => ⟨hp, hr⟩, fun ⟨hp, hr⟩ => ⟨_, hp, hr⟩⟩

/-- The same for a body behind the pointer at `field`. -/
lemma Body.check_iff (hlen : bytes.length < 2 ^ 31) :
    ∀ {p : Pointer} (b : Body env p) {field data rounds : ℕ}, field ≤ data → b.Tight →
      b.CountsFit → bytes.length ≤ rounds + field →
      slice bytes field (field + 4) = some (leBytes 4 (data - field)) → b.Stored bytes data →
      (p.check env bytes (checkAt env bytes rounds) field = .ok () ↔ b.Roomy bytes.length data)
  | _, .string text, field, data, _, hle, _, _, _, hptr, h => by
      obtain ⟨hcount, htext⟩ := h
      have hinside := (slice_eq_some.mp htext).2.1
      have hresolve := resolve_eq hptr hle (by omega)
      exact iff_of_true (checkStringField_of hlen hresolve hcount htext) trivial
  | _, @Body.vecScalar _ s elements, field, data, _, hle, _, _, _, hptr, h => by
      obtain ⟨hcount, helements⟩ := h
      have hinside := (slice_eq_some.mp helements).2.1
      have hround := le_roundUp (data + 4) s.size
      have hsize := Nat.le_mul_of_pos_right elements.length s.isAlign_size.pos
      have hresolve := resolve_eq hptr hle (by omega)
      refine iff_of_true ?_ trivial
      show checkVecField bytes field s.size s.size = .ok ()
      rw [checkVecField, (checkVecBody_eq_ok_iff hlen hresolve hcount (by omega)).mpr
        ⟨hinside, rfl⟩, ok_bind]
      rfl
  | _, @Body.vecStruct _ i elements, field, data, 0, hle, _, _, hrounds, hptr, _ => by
      have hinside := (slice_eq_some.mp hptr).2.1
      omega
  | _, @Body.vecStruct _ i elements, field, data, rounds + 1, hle, htight, hfit, hrounds, hptr,
      h => by
      obtain ⟨hcount, helements⟩ := h
      obtain ⟨hfields, hnext, hbodies⟩ := htight
      have hinside := (slice_eq_some.mp hcount).2.1
      have hresolve := resolve_eq hptr hle (by omega)
      have hround := le_roundUp (data + 4) (env i).align
      rw [Body.Roomy]
      refine (checkVecNested_iff hlen hresolve hcount hfit.1).trans (and_congr_right fun hroom => ?_)
      exact Elements.check_iff hlen elements rounds _ 0 _
        (by rw [Nat.zero_mul, Nat.add_zero]) (dvd_roundUp (env i).align_pos)
        (fun hone => ⟨hfields hone, Fields.Starts.refl _ _⟩) hnext (Nat.le_refl _) hbodies hfit.2
        hroom (by omega) helements

/-- The same for the elements of a `Vec`, from the element `i` on. -/
lemma Elements.check_iff (hlen : bytes.length < 2 ^ 31) :
    ∀ {fs : Fields} (es : Elements env fs) (rounds body i base : ℕ) {start data : ℕ},
      body + i * fs.size = base → fs.align ∣ base →
      (1 ≤ es.length → fs.Tight ∧ fs.Starts start base) →
      (2 ≤ es.length → ∀ a ∈ fs.headAlign, fs.gap < a) → es.skeletonsEnd start ≤ data →
      es.Tight → es.CountsFit → base + es.length * fs.size ≤ bytes.length →
      bytes.length ≤ rounds + base → es.Stored bytes start data →
      (checkElements (fs.check env bytes (checkAt env bytes rounds)) body fs.size es.length i
        = .ok () ↔ es.Roomy bytes.length data)
  | _, .nil, _, _, _, _, _, _, _, _, _, _, _, _, _, _, _, _ => iff_of_true rfl trivial
  | fs, .cons head tail, rounds, body, i, base, start, data, hbase, hdvd, hone, htwo, hbehind,
      hbodies, hfit, hroom, hrounds, h => by
      have hend := tail.le_skeletonsEnd (fs.writtenEnd start)
      have hbehind : tail.skeletonsEnd (fs.writtenEnd start) ≤ data := hbehind
      obtain ⟨htight, hstart⟩ := hone (Nat.succ_pos _)
      rw [Elements.length, Nat.succ_mul] at hroom
      have hmul : checkedMul i fs.size = some (i * fs.size) := by
        rw [checkedMul, if_pos (by rw [u64Max]; omega)]
      have hadd : checkedAdd body (i * fs.size) = some base := by
        rw [checkedAdd, if_pos (by rw [u64Max]; omega), hbase]
      have hfront := Record.check_iff hlen head rounds htight hstart
        (hend.trans hbehind) hbodies.1 hfit.1 hrounds h.1
      have hback := Elements.check_iff hlen tail rounds body (i + 1) (base + fs.size)
        (by rw [Nat.succ_mul, ← hbase, Nat.add_assoc])
        (Nat.dvd_add hdvd fs.align_dvd_size)
        (fun hmore => ⟨htight, (starts_next hdvd htight hstart).mpr
          (htwo (Nat.succ_le_succ hmore))⟩)
        (fun hmore => htwo (Nat.le_succ_of_le hmore)) (hbehind.trans (head.le_bodiesEnd data))
        hbodies.2 hfit.2 (by omega) (by omega) h.2
      rw [Elements.length, checkElements, hmul, okOr_some, ok_bind, hadd, okOr_some, ok_bind,
        bind_eq_ok, Elements.Roomy, ← hfront, ← hback]
      exact ⟨fun ⟨_, hp, hr⟩ => ⟨hp, hr⟩, fun ⟨hp, hr⟩ => ⟨_, hp, hr⟩⟩

end

/-! ## Archived values -/

/-- A value whose pointers are taken in order, whose leaves are in place, and whose counts fit. -/
structure Record.Archivable (value : Record env fs) : Prop where
  safe : value.QueueSafe 0
  placed : ∀ s ∈ archiveSkeletons value, s.InPlace
  counts : value.CountsFit

lemma toArchive_stored (value : Record env fs) (hsafe : value.QueueSafe 0) {payload : List UInt8}
    (hpayload : toArchive value = .ok payload) : value.Stored payload 0 (fs.writtenEnd 0) := by
  obtain ⟨w, hok, -⟩ := writeArchive_spec value
  obtain ⟨hstop, hqueue⟩ := value.writeSkeleton_spec Writer.new
  change (value.writeSkeleton Writer.new).positions = fs.placeholders 0 at hqueue
  change (value.writeSkeleton Writer.new).bytes.length = fs.writtenEnd 0 at hstop
  have hnil : (value.writeSkeleton Writer.new).positions = fs.placeholders 0 ++ [] := by
    rw [hqueue, List.append_nil]
  obtain ⟨-, hstored⟩ := value.writeBodies_stored
    ⟨hnil, value.ready.inside, hstop.ge, hsafe, (value.writeSkeleton_inline Writer.new).2⟩ hok
  rw [toArchive, hok, ok_bind] at hpayload
  obtain rfl := Outcome.ok.inj hpayload
  exact hstop ▸ hstored

/-- `check_at` of the root, over what was written. -/
lemma checkArchive_toArchive_iff {value : Record env fs} (harchivable : value.Archivable)
    {payload : List UInt8} (hpayload : toArchive value = .ok payload)
    (hshort : payload.length < 2 ^ 31) :
    checkArchive env fs payload payload.length = .ok () ↔
      value.Roomy payload.length (fs.writtenEnd 0) := by
  obtain ⟨hsafe, hplaced, hcounts⟩ := harchivable
  obtain ⟨htight, hbodies⟩ := (archiveSkeletons_inPlace_iff value).mp hplaced
  exact Record.check_iff hshort value _ htight (Fields.Starts.refl fs 0) le_rfl hbodies hcounts
    le_rfl (toArchive_stored value hsafe hpayload)

lemma shown_of_toArchive {value : Record env fs} (harchivable : value.Archivable)
    {payload : List UInt8} (hpayload : toArchive value = .ok payload)
    (hshort : payload.length < 2 ^ 31) : value.Shown payload 0 0 := by
  obtain ⟨hsafe, hplaced, hcounts⟩ := harchivable
  obtain ⟨htight, hbodies⟩ := (archiveSkeletons_inPlace_iff value).mp hplaced
  exact value.shown_of_stored hshort (Nat.dvd_zero _) htight (Fields.Starts.refl fs 0) le_rfl
    hbodies hcounts (toArchive_stored value hsafe hpayload)

/-- There is always a buffer for a payload with small distances. -/
lemma archiveLen_le {payload : List UInt8} {blockSize h : ℕ} (hshort : payload.length < 2 ^ 31)
    (hmin : 32 ≤ blockSize) (hheight : treeHeight (blockTotal payload.length blockSize) = .ok h) :
    archiveLen payload.length h ≤ isizeMax - (maxArchiveAlignment - 1) := by
  have hfew : blockTotal payload.length blockSize ≤ 2 ^ 31 := by
    refine max_le ?_ (by decide)
    obtain ⟨e, rfl⟩ : ∃ e, blockSize = e + 1 := ⟨blockSize - 1, by omega⟩
    have hone := Nat.le_mul_of_pos_right e (show 0 < 2 ^ 31 by decide)
    refine Nat.div_le_of_le_mul ?_
    rw [Nat.add_sub_cancel, Nat.succ_mul]
    omega
  have hsmall : h ≤ 31 := by
    rcases (treeHeight_eq_ok.mp hheight).2.1 with rfl | hlow
    · decide
    · have hpow := (Nat.pow_lt_pow_iff_right (show 1 < 2 by decide)).mp (hlow.trans_le hfew)
      omega
  have hnodes : 2 ^ h ≤ 2 ^ 31 := Nat.pow_le_pow_right (by decide) hsmall
  rw [archiveLen, headerLen, isizeMax, maxArchiveAlignment]
  omega

lemma Fields.align_le (fs : Fields) : fs.align ≤ 8 := by
  induction fs with
  | nil => exact (by decide : 1 ≤ 8)
  | scalar s rest ih => exact max_le (by cases s <;> decide) ih
  | pointer p rest ih => exact max_le (by decide) ih
  | nested inner rest ih ih' => exact max_le ih ih'

/-- **Archived values.** A value that can be archived is built exactly if there is room for the
file and the elements of each of its `Vec`s of structs end in the payload; then the archive shows
the value, from the root on, has a proof for every range, and is accepted again. -/
theorem buildRecord_iff {value : Record env fs} (harchivable : value.Archivable)
    {payload : List UInt8} (hpayload : toArchive value = .ok payload)
    (hshort : payload.length < 2 ^ 31) {blake3 : List UInt8 → Digest} {schemaId : UInt64}
    {base : ℕ} (hbase : maxArchiveAlignment ∣ base) {limits : ArchiveLimits} :
    ((∃ archive, build blake3 (archiveSchema env fs schemaId) base (toArchive value) limits
          = .ok archive) ↔
        schemaId ≠ 0 ∧ isPowerOfTwo limits.merkleBlockSize.toNat ∧
          32 ≤ limits.merkleBlockSize.toNat ∧
          (∃ h, treeHeight (blockTotal payload.length limits.merkleBlockSize.toNat) = .ok h ∧
            archiveLen payload.length h ≤ limits.maxFileSize) ∧
          value.Roomy payload.length (fs.writtenEnd 0)) ∧
      ∀ archive, build blake3 (archiveSchema env fs schemaId) base (toArchive value) limits
          = .ok archive →
        Holds blake3 (archiveSchema env fs schemaId) payload archive ∧
          value.Shown payload 0 0 := by
  have halignment : IsAlign fs.align := fs.isAlign_align
  have halign : fs.align ≤ maxArchiveAlignment := fs.align_le.trans (by decide)
  have hlen : payload.length ≤ isizeMax := by
    rw [isizeMax]
    omega
  have hcheck := checkArchive_toArchive_iff harchivable hpayload hshort
  rw [hpayload]
  constructor
  · refine (exists_build_iff halignment hbase hlen).trans ?_
    constructor
    · rintro ⟨hid, -, hpow, hmin, hchecked, h, hheight, hlimit, -⟩
      exact ⟨hid, hpow, hmin, ⟨h, hheight, hlimit⟩, hcheck.mp hchecked⟩
    · rintro ⟨hid, hpow, hmin, ⟨h, hheight, hlimit⟩, hroomy⟩
      exact ⟨hid, halign, hpow, hmin, hcheck.mpr hroomy, h, hheight, hlimit,
        archiveLen_le hshort hmin hheight⟩
  · intro archive hbuilt
    exact ⟨holds_of_build halignment hbase hlen hbuilt,
      shown_of_toArchive harchivable hpayload hshort⟩

/-- A `Vec` of one struct with a string. -/
def entriesFields : Fields := .pointer (.vecStruct 0) .nil

def entriesValue : Record (fun _ => .pointer .string .nil) entriesFields :=
  .pointer (.vecStruct (.cons (.pointer (.string "a") .nil) .nil)) .nil

def entriesPayload : List UInt8 := [4, 0, 0, 0, 1, 0, 0, 0, 4, 0, 0, 0, 1, 0, 0, 0, 97]

lemma entries_toArchive : toArchive entriesValue = .ok entriesPayload := by decide +kernel

lemma entries_archivable : entriesValue.Archivable where
  safe := ⟨fun _ => ⟨rfl, ⟨trivial, trivial⟩, trivial⟩, trivial⟩
  placed := by
    refine (archiveSkeletons_inPlace_iff entriesValue).mpr ⟨trivial, ?_, trivial⟩
    exact ⟨fun _ => trivial, fun h => absurd h (by decide), ⟨trivial, trivial⟩, trivial⟩
  counts := ⟨⟨by decide, ⟨trivial, trivial⟩, trivial⟩, trivial⟩

theorem buildRecord_iff_entries :
    ((∃ archive, build sampleHash (archiveSchema (fun _ => .pointer .string .nil) entriesFields 1)
          0 (toArchive entriesValue) ArchiveLimits.new = .ok archive) ↔
        (1 : UInt64) ≠ 0 ∧ isPowerOfTwo ArchiveLimits.new.merkleBlockSize.toNat ∧
          32 ≤ ArchiveLimits.new.merkleBlockSize.toNat ∧
          (∃ h, treeHeight (blockTotal entriesPayload.length
              ArchiveLimits.new.merkleBlockSize.toNat) = .ok h ∧
            archiveLen entriesPayload.length h ≤ ArchiveLimits.new.maxFileSize) ∧
          entriesValue.Roomy entriesPayload.length (entriesFields.writtenEnd 0)) ∧
      ∀ archive, build sampleHash (archiveSchema (fun _ => .pointer .string .nil) entriesFields 1)
          0 (toArchive entriesValue) ArchiveLimits.new = .ok archive →
        Holds sampleHash (archiveSchema (fun _ => .pointer .string .nil) entriesFields 1)
            entriesPayload archive ∧ entriesValue.Shown entriesPayload 0 0 :=
  buildRecord_iff entries_archivable entries_toArchive (by decide) (by decide)

end RustBinary.Archive
