import RustBinary.Delta.Atomicity
import RustBinary.Lib.Record

/-!
# What a frame costs

`decode_updates` once more, with a record of the entries that room is reserved for and of the
rounds of its loop.  The rounds end with the bytes of the frame; the room is reserved for the
count that the header declares, before an entry is read.
-/

namespace RustBinary.Delta

open Lib Lib.Outcome DeltaCursor
open Lib.Act (beside record Traces traces_beside)

/-! ## The record -/

/-- The entries that room was reserved for, and the rounds of the loop. -/
@[ext]
structure Work where
  reserved : ℕ
  rounds : ℕ
deriving DecidableEq, Repr

abbrev Worked (α : Type) : Type := Act (DeltaTable × Work) Error α

/-- One round of the loop of `decode_updates`. -/
def decodeEntry (c : DeltaCursor) : Act DeltaTable Error (List UInt8 × DeltaCursor) := do
  let (entry, c) ← lift (readEntry c)
  match entry with
  | .ref index =>
      let table ← Act.get
      let value ← Act.okOr (table.get index) (.delta "delta table reference out of range")
      pure (value, c)
  | .literal value =>
      let _ ← DeltaTable.insert value
      pure (value, c)

/-- The loop of `decode_updates`, with its rounds. -/
def decodeEntriesTraced : ℕ → DeltaCursor → List (List UInt8) →
    Worked (List (List UInt8) × DeltaCursor)
  | 0, c, updates => pure (updates, c)
  | n + 1, c, updates => do
      record fun w => { w with rounds := w.rounds + 1 }
      let read ← beside (decodeEntry c)
      decodeEntriesTraced n read.2 (updates ++ [read.1])

/-- Room for `count` entries is asked for; more than the address space aborts. -/
def reserve (count : ℕ) : Worked Unit := do
  record fun w => { w with reserved := w.reserved + count }
  beside (lift (withCapacity 24 count))

/-- `decode_updates`, with its work. -/
def decodeUpdatesTraced (base : Config) (input : Input) : Worked (List (List UInt8)) := do
  let (reset, count) ← beside (lift (readHeader base input.bytes))
  beside (if reset then Act.modify DeltaTable.cleared else pure ())
  reserve count
  let read ← decodeEntriesTraced count ⟨input.bytes.drop headerLen, 0⟩ []
  beside (finished read)

/-- The work of a call of `decode_updates`. -/
def work (base : Config) (t : DeltaTable) (input : Input) : Work :=
  (decodeUpdatesTraced base input (t, ⟨0, 0⟩)).2.2

/-! ## The record changes nothing -/

lemma decodeEntry_run (c : DeltaCursor) (t : DeltaTable) :
    decodeEntry c t =
      match readEntry c with
      | .ok (.ref index, c) =>
          match t.get index with
          | some value => (.ok (value, c), t)
          | none => (.err (.delta "delta table reference out of range"), t)
      | .ok (.literal value, c) => (.ok (value, c), t.inserted value)
      | .err e => (.err e, t)
      | .panic => (.panic, t)
      | .diverge => (.diverge, t) := by
  rw [decodeEntry]
  rcases readEntry c with ⟨index | value, c⟩ | e | _ | _
  · rw [lift_ok_bind_run]
    dsimp only
    rw [Act.get_bind_run]
    cases t.get index <;> rfl
  all_goals rfl

/-- The loop does one round after the other. -/
lemma decodeEntries_eq (n : ℕ) (c : DeltaCursor) (updates : List (List UInt8)) :
    decodeEntries (n + 1) c updates =
      decodeEntry c >>= fun read => decodeEntries n read.2 (updates ++ [read.1]) := by
  refine Act.ext_run fun t => ?_
  rw [decodeEntries_succ, Act.bind_run, decodeEntry_run]
  rcases readEntry c with ⟨index | value, c⟩ | e | _ | _
  · dsimp only
    cases t.get index <;> rfl
  all_goals rfl

lemma traces_decodeEntriesTraced (n : ℕ) (c : DeltaCursor) (updates : List (List UInt8)) :
    Traces (decodeEntriesTraced n c updates) (decodeEntries n c updates) := by
  induction n generalizing c updates with
  | zero => exact fun _ => rfl
  | succ n ih =>
      rw [decodeEntries_eq]
      exact .record_bind ((traces_beside _).bind fun read => ih read.2 _)

lemma decodeUpdates_eq (base : Config) (input : Input) :
    decodeUpdates base input = lift (readHeader base input.bytes) >>= fun header =>
      (if header.1 then Act.modify DeltaTable.cleared else pure ()) >>= fun _ =>
        lift (withCapacity 24 header.2) >>= fun _ =>
          decodeEntries header.2 ⟨input.bytes.drop headerLen, 0⟩ [] >>= finished := by
  refine Act.ext_run fun t => ?_
  rw [decodeUpdates, Act.bind_run, Act.bind_run]
  rcases readHeader base input.bytes with ⟨_ | _, count⟩ | e | _ | _ <;> rfl

lemma traces_decodeUpdatesTraced (base : Config) (input : Input) :
    Traces (decodeUpdatesTraced base input) (decodeUpdates base input) := by
  rw [decodeUpdates_eq]
  refine (traces_beside _).bind fun header => (traces_beside _).bind fun _ => ?_
  refine (Traces.record_bind (traces_beside _)).bind fun _ => ?_
  exact (traces_decodeEntriesTraced header.2 _ []).bind fun read => traces_beside _

/-! ## Bounds -/

namespace DeltaCursor

/-- The bytes that are left. -/
def remaining (c : DeltaCursor) : ℕ := c.input.length - c.pos

lemma byte_remaining {c c' : DeltaCursor} {b : UInt8} (h : c.byte = ok (b, c')) :
    c'.remaining < c.remaining := by
  rw [byte] at h
  split at h
  · next hget =>
      have hlt := (List.getElem?_eq_some_iff.mp hget).1
      cases h
      simp only [remaining]
      omega
  · cases h

lemma take_remaining {c c' : DeltaCursor} {length : ℕ} {bytes : List UInt8}
    (h : c.take length = ok (bytes, c')) : c'.remaining ≤ c.remaining := by
  rw [take] at h
  split at h
  · cases h
  · next stop hadd =>
      split at h
      · cases h
      · have hstop := checkedAdd_eq_some hadd
        cases h
        simp only [remaining]
        omega

lemma varintLoop_remaining {n shift acc value : ℕ} {c c' : DeltaCursor}
    (h : varintLoop n shift acc c = ok (value, c')) : c'.remaining < c.remaining := by
  induction n generalizing shift acc c with
  | zero => cases h
  | succ n ih =>
      rw [varintLoop] at h
      cases hbyte : c.byte with
      | err e => rw [hbyte] at h; cases h
      | panic => rw [hbyte] at h; cases h
      | diverge => rw [hbyte] at h; cases h
      | ok read =>
          obtain ⟨b, next⟩ := read
          have hless := byte_remaining hbyte
          rw [hbyte] at h
          dsimp only at h
          split at h
          · cases h
          · split at h
            · cases h
            · split at h
              · cases h
                exact hless
              · exact (ih h).trans hless

end DeltaCursor

/-- An entry takes at least one byte. -/
lemma readEntry_remaining {c c' : DeltaCursor} {entry : Entry}
    (h : readEntry c = ok (entry, c')) : c'.remaining < c.remaining := by
  obtain ⟨⟨tag, c₁⟩, hbyte, h⟩ := bind_eq_ok.mp h
  have hless := byte_remaining hbyte
  dsimp only at h
  split at h
  · obtain ⟨⟨index, c₂⟩, hvarint, h⟩ := bind_eq_ok.mp h
    dsimp only at h
    split at h
    · cases h
      exact (varintLoop_remaining hvarint).trans hless
    · cases h
  · split at h
    · obtain ⟨⟨length, c₂⟩, hlength, h⟩ := bind_eq_ok.mp h
      obtain ⟨⟨word, c₃⟩, hvarint, hfits⟩ := bind_eq_ok.mp hlength
      obtain ⟨⟨value, c₄⟩, htake, h⟩ := bind_eq_ok.mp h
      dsimp only at hfits htake
      split at hfits
      · cases hfits
        cases h
        exact (take_remaining htake).trans_lt ((varintLoop_remaining hvarint).trans hless)
      · cases hfits
    · cases h

lemma decodeEntry_remaining {c c' : DeltaCursor} {value : List UInt8} {t u : DeltaTable}
    (h : decodeEntry c t = (ok (value, c'), u)) : c'.remaining < c.remaining := by
  rw [decodeEntry_run] at h
  rcases hread : readEntry c with ⟨index | literal, c₁⟩ | e | _ | _ <;> rw [hread] at h
  · dsimp only at h
    split at h
    · cases h
      exact readEntry_remaining hread
    · cases h
  · cases h
    exact readEntry_remaining hread
  all_goals cases h

lemma decodeEntry_returned (c : DeltaCursor) (t : DeltaTable) :
    (decodeEntry c t).1.Returned := by
  have hreturned := readEntry_returned c
  rw [decodeEntry_run]
  rcases hread : readEntry c with ⟨index | literal, c₁⟩ | e | _ | _ <;> rw [hread] at hreturned
  · dsimp only
    split <;> trivial
  · trivial
  · trivial
  · exact hreturned.elim
  · exact hreturned.elim

/-- The loop comes back, and its rounds end with the bytes. -/
lemma decodeEntriesTraced_bound (n : ℕ) (c : DeltaCursor) (updates : List (List UInt8))
    (s : DeltaTable × Work) :
    (decodeEntriesTraced n c updates s).1.Returned ∧
      (decodeEntriesTraced n c updates s).2.2.reserved = s.2.reserved ∧
      (decodeEntriesTraced n c updates s).2.2.rounds ≤ s.2.rounds + c.remaining + 1 := by
  induction n generalizing c updates s with
  | zero => exact ⟨trivial, rfl, Nat.le_succ_of_le (Nat.le_add_right _ _)⟩
  | succ n ih =>
      have hreturned := decodeEntry_returned c s.1
      have hrun : decodeEntriesTraced (n + 1) c updates s =
          (beside (decodeEntry c) >>= fun read =>
            decodeEntriesTraced n read.2 (updates ++ [read.1]))
            (s.1, { s.2 with rounds := s.2.rounds + 1 }) := rfl
      rw [hrun, Act.bind_run, beside]
      rcases hentry : decodeEntry c s.1 with ⟨⟨value, c'⟩ | e | _ | _, t⟩ <;>
        rw [hentry] at hreturned
      · have hless := decodeEntry_remaining hentry
        obtain ⟨hback, hreserved, hrounds⟩ := ih c' (updates ++ [value])
          (t, { s.2 with rounds := s.2.rounds + 1 })
        refine ⟨hback, hreserved, ?_⟩
        dsimp only at hrounds ⊢
        omega
      · refine ⟨trivial, rfl, ?_⟩
        dsimp only
        omega
      · exact hreturned.elim
      · exact hreturned.elim

/-! ## The header -/

/-- The number of entries that a header declares. -/
def declared (input : List UInt8) : ℕ := leNat ((input.drop 8).take 8)

/-- The frame is within the limit, and its header is one of this format. -/
structure Accepted (base : Config) (input : List UInt8) : Prop where
  limit_le : ∀ limit, base.limit = some limit → input.length ≤ limit
  length_le : headerLen ≤ input.length
  magic_eq : input.take 4 = magic
  version_eq : leNat ((input.drop 4).take 2) = formatVersion
  flags_eq : leNat ((input.drop 6).take 2) &&& (0xffff - flagResetTable) = 0

lemma slice_header {input header : List UInt8} :
    slice input 0 headerLen = some header ↔
      headerLen ≤ input.length ∧ header = input.take headerLen := by
  rw [slice_eq_some, List.drop_zero, Nat.sub_zero]
  constructor
  · rintro ⟨-, hlen, rfl⟩
    exact ⟨hlen, rfl⟩
  · rintro ⟨hlen, rfl⟩
    exact ⟨Nat.zero_le _, hlen, rfl⟩

/-- The words of the header are those of the frame. -/
lemma take_drop_header (input : List UInt8) {start width : ℕ} (h : start + width ≤ headerLen) :
    ((input.take headerLen).drop start).take width = (input.drop start).take width := by
  rw [List.drop_take, List.take_take, Nat.min_eq_left (by omega)]

lemma readHeader_eq_ok {base : Config} {input : List UInt8} {header : Bool × ℕ} :
    readHeader base input = ok header ↔ Accepted base input ∧
      header = (decide (leNat ((input.drop 6).take 2) &&& flagResetTable ≠ 0), declared input) := by
  have hmagic : (input.take headerLen).take 4 = input.take 4 := by
    rw [List.take_take, headerLen]
    rfl
  rw [readHeader]
  simp only [bind_eq_ok, Config.enforceByteLimit_eq_ok, exists_const, okOr_eq_ok, require_eq_ok,
    slice_header, Outcome.ok.injEq]
  constructor
  · rintro ⟨hlimit, _, ⟨hlen, rfl⟩, hmagic', hversion, hflags, rfl⟩
    rw [hmagic] at hmagic'
    rw [take_drop_header input (by decide)] at hversion hflags
    refine ⟨⟨hlimit, hlen, hmagic', hversion, hflags⟩, ?_⟩
    rw [take_drop_header input (by decide), take_drop_header input (by decide), declared]
  · rintro ⟨h, rfl⟩
    refine ⟨h.limit_le, _, ⟨h.length_le, rfl⟩, ?_⟩
    rw [hmagic, take_drop_header input (by decide), take_drop_header input (by decide),
      take_drop_header input (by decide)]
    exact ⟨h.magic_eq, h.version_eq, h.flags_eq, rfl⟩

lemma readHeader_returned (base : Config) (input : List UInt8) :
    (readHeader base input).Returned := by
  refine bind_returned ?_ fun _ => bind_returned (okOr_returned _ _) fun header =>
    bind_returned (require_returned _ _) fun _ => bind_returned (require_returned _ _) fun _ =>
      bind_returned (require_returned _ _) fun _ => trivial
  rw [Config.enforceByteLimit]
  split
  · split <;> trivial
  · trivial

/-! ## A call -/

lemma finished_returned (read : List (List UInt8) × DeltaCursor) (t : DeltaTable) :
    (finished read t).1.Returned := by
  rw [finished, finish]
  split <;> trivial

lemma reserve_run (count : ℕ) (t : DeltaTable) :
    reserve count (t, ⟨0, 0⟩) = (withCapacity 24 count, (t, ⟨count, 0⟩)) := by
  have hcount : 0 + count = count := Nat.zero_add count
  have hrun : reserve count (t, ⟨0, 0⟩) = (withCapacity 24 count, (t, ⟨0 + count, 0⟩)) := rfl
  rw [hrun, hcount]

/-- What a call does after the header. -/
def afterHeader (count : ℕ) (c : DeltaCursor) : Worked (List (List UInt8)) := do
  reserve count
  let read ← decodeEntriesTraced count c []
  beside (finished read)

/-- A call reserves room for the declared count, and then comes back in no more rounds than there
are bytes, unless the room is more than the address space. -/
lemma afterHeader_bound (count : ℕ) (c : DeltaCursor) (t : DeltaTable) :
    ((afterHeader count c (t, ⟨0, 0⟩)).1.Returned ↔ 24 * count ≤ isizeMax) ∧
      (afterHeader count c (t, ⟨0, 0⟩)).2.2.reserved = count ∧
      (afterHeader count c (t, ⟨0, 0⟩)).2.2.rounds ≤ c.remaining + 1 := by
  have hreserve := reserve_run count t
  by_cases hroom : 24 * count ≤ isizeMax
  · rw [withCapacity_of_le hroom] at hreserve
    obtain ⟨hback, hreserved, hrounds⟩ := decodeEntriesTraced_bound count c [] (t, ⟨count, 0⟩)
    rw [afterHeader, Act.bind_of_ok hreserve, Act.bind_run]
    rcases hloop : decodeEntriesTraced count c [] (t, ⟨count, 0⟩) with ⟨read | e | _ | _, u, w⟩ <;>
      rw [hloop] at hback hreserved hrounds <;> dsimp only at hreserved hrounds ⊢
    · refine ⟨iff_of_true (finished_returned read u) hroom, hreserved, ?_⟩
      show w.rounds ≤ c.remaining + 1
      omega
    · exact ⟨iff_of_true trivial hroom, hreserved, by omega⟩
    · exact hback.elim
    · exact hback.elim
  · rw [withCapacity, if_neg hroom] at hreserve
    rw [afterHeader, Act.bind_of_panic hreserve]
    exact ⟨iff_of_false id hroom, rfl, Nat.zero_le _⟩

/-- A call is safe exactly when the header is refused, or declares no more entries than the frame
has bytes and than a vector can hold. -/
theorem decodeUpdates_safe_iff (base : Config) (t : DeltaTable) (input : Input) :
    ((decodeUpdates base input t).1.Returned ∧
      (work base t input).reserved ≤ input.bytes.length ∧
      (work base t input).rounds ≤ input.bytes.length) ↔
    (Accepted base input.bytes → declared input.bytes ≤ input.bytes.length ∧
      24 * declared input.bytes ≤ isizeMax) := by
  have htraces : (decodeUpdates base input t).1 =
      (decodeUpdatesTraced base input (t, ⟨0, 0⟩)).1 := by
    rw [← traces_decodeUpdatesTraced base input (t, ⟨0, 0⟩)]
  have hreturned := readHeader_returned base input.bytes
  rw [htraces, work, decodeUpdatesTraced, Act.bind_run]
  cases hheader : readHeader base input.bytes with
  | err e =>
      refine iff_of_true ⟨trivial, Nat.zero_le _, Nat.zero_le _⟩ fun haccepted => ?_
      rw [readHeader_eq_ok.mpr ⟨haccepted, rfl⟩] at hheader
      cases hheader
  | panic => rw [hheader] at hreturned; exact hreturned.elim
  | diverge => rw [hheader] at hreturned; exact hreturned.elim
  | ok header =>
      obtain ⟨haccepted, rfl⟩ := readHeader_eq_ok.mp hheader
      have hlen := haccepted.length_le
      have hrun : ∀ reset : Bool, ((beside (if reset then Act.modify DeltaTable.cleared
            else pure ()) : Worked Unit) >>= fun _ =>
          afterHeader (declared input.bytes) ⟨input.bytes.drop headerLen, 0⟩) (t, ⟨0, 0⟩) =
          afterHeader (declared input.bytes) ⟨input.bytes.drop headerLen, 0⟩
            ((if reset then t.cleared else t), ⟨0, 0⟩) := by
        intro reset
        cases reset <;> rfl
      have hstep := hrun (decide (leNat ((input.bytes.drop 6).take 2) &&& flagResetTable ≠ 0))
      obtain ⟨hback, hreserved, hrounds⟩ := afterHeader_bound (declared input.bytes)
        ⟨input.bytes.drop headerLen, 0⟩
        (if decide (leNat ((input.bytes.drop 6).take 2) &&& flagResetTable ≠ 0) then t.cleared
          else t)
      rw [← hstep] at hback hreserved hrounds
      have hremaining : DeltaCursor.remaining ⟨input.bytes.drop headerLen, 0⟩ =
          input.bytes.length - headerLen := by
        rw [remaining, List.length_drop, Nat.sub_zero]
      rw [hremaining, headerLen] at hrounds
      rw [headerLen] at hlen
      constructor
      · rintro ⟨h, hreserve, -⟩ -
        exact ⟨hreserved.ge.trans hreserve, hback.mp h⟩
      · intro h
        obtain ⟨hdeclared, hroom⟩ := h haccepted
        exact ⟨hback.mpr hroom, hreserved.le.trans hdeclared, hrounds.trans (by omega)⟩

/-- A header without an entry that declares as many as a word can. -/
def boast : Input where
  bytes := magic ++ leBytes 2 formatVersion ++ leBytes 2 0 ++ List.replicate 8 0xff
  length_le := by decide

/-- The declared count is asked room for at once, which aborts. -/
theorem decodeUpdates_boast : ¬ ∀ (base : Config) (t : DeltaTable) (input : Input),
    (decodeUpdates base input t).1.Returned ∧
      (work base t input).reserved ≤ input.bytes.length ∧
      (work base t input).rounds ≤ input.bytes.length := by
  intro h
  have hmax : (0 : ℕ) ≤ u64Max := Nat.zero_le _
  have hback := (h Config.standard (DeltaTable.new 0 hmax) boast).1
  have hpanic : (decodeUpdates Config.standard boast (DeltaTable.new 0 hmax)).1 = .panic := rfl
  rw [hpanic] at hback
  exact hback

end RustBinary.Delta
