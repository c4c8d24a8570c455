import RustBinary.Delta.Plan

/-!
# The two ends of a link

The frames that one end encodes, decoded in order at the other end: the batches come back, and
after each frame the two tables are the same.  Within a frame the decoder follows the plan of
the encoder, so that the tables agree whenever an index is written or read.
-/

namespace RustBinary.Delta

open Lib Lib.Outcome DeltaCursor

/-! ## Entries come back -/

/-- The index of a reference is a `usize`. -/
def Entry.Fits : Entry → Prop
  | .ref index => index ≤ u64Max
  | .literal _ => True

lemma readEntry_here (entry : Entry) (hfits : entry.Fits) {pre post : List UInt8}
    (hlen : (pre ++ entry.encode ++ post).length ≤ u64Max) :
    readEntry (here pre (entry.encode ++ post)) = ok (entry, here (pre ++ entry.encode) post) := by
  cases entry with
  | ref index =>
      rw [Entry.encode, List.cons_append, readEntry, byte_here, ok_bind]
      dsimp only
      rw [if_pos rfl, varint_here _ _ hfits, ok_bind]
      dsimp only
      rw [if_pos (show index ≤ u64Max from hfits), List.append_assoc, List.singleton_append]
  | literal value =>
      have hvalue : value.length ≤ u64Max := by
        simp only [Entry.encode, List.length_append, List.length_cons] at hlen
        omega
      have htag : tagLiteral ≠ tagRef := by decide
      have hsplit : pre ++ [tagLiteral] ++ leb128 value.length ++ value
          = pre ++ Entry.encode (.literal value) := by
        simp only [Entry.encode, List.append_assoc, List.cons_append, List.nil_append]
      rw [Entry.encode, List.append_assoc, List.cons_append, readEntry, byte_here, ok_bind]
      dsimp only
      rw [if_neg htag, if_pos rfl, usizeVarint, varint_here _ _ hvalue, ok_bind]
      dsimp only
      rw [if_pos hvalue, ok_bind]
      dsimp only
      rw [take_here (by rw [hsplit]; exact hlen), ok_bind, hsplit]
      rfl

/-- A planned batch comes back entry by entry, and the table moves as the planner's did. -/
lemma decodeEntries_plan (updates : List (List UInt8)) (pre post : List UInt8) (t : DeltaTable)
    (done : List (List UInt8))
    (hlen : (pre ++ (plan t updates).flatMap Entry.encode ++ post).length ≤ u64Max) :
    decodeEntries updates.length (here pre ((plan t updates).flatMap Entry.encode ++ post)) done t =
      (ok (done ++ updates, here (pre ++ (plan t updates).flatMap Entry.encode) post),
        t.insertedAll (literals (plan t updates))) := by
  induction updates generalizing pre done t with
  | nil => simp [plan, decodeEntries, literals, DeltaTable.insertedAll]
  | cons value updates ih =>
      rw [plan] at hlen ⊢
      rw [List.length_cons, decodeEntries_succ]
      cases h : t.lookup value with
      | some index =>
          -- the table holds the value, so the index leads back to it
          obtain ⟨hget, hfits⟩ := DeltaTable.get_of_lookup h
          rw [h] at hlen
          simp only [List.flatMap_cons, ← List.append_assoc] at hlen
          simp only [List.flatMap_cons, List.append_assoc]
          rw [readEntry_here (.ref index) hfits
            (by simp only [List.length_append] at hlen ⊢; omega)]
          simp only [hget]
          rw [ih _ t (done ++ [value]) hlen]
          simp [literals]
      | none =>
          rw [h] at hlen
          simp only [List.flatMap_cons, ← List.append_assoc] at hlen
          simp only [List.flatMap_cons, List.append_assoc]
          rw [readEntry_here (.literal value) trivial
            (by simp only [List.length_append] at hlen ⊢; omega)]
          dsimp only
          rw [ih _ (t.inserted value) (done ++ [value]) hlen]
          simp [literals, DeltaTable.insertedAll]

/-! ## Frames come back -/

/-- The header of a frame that the encoder has written. -/
lemma readHeader_frame {base : Config} {count : ℕ} {payload : List UInt8} (hcount : count ≤ u64Max)
    (hlimit : base.enforceByteLimit (frame count payload).length = ok ()) :
    readHeader base (frame count payload) = ok (false, count) ∧
      (frame count payload).drop headerLen = payload := by
  obtain ⟨header, hheader⟩ : ∃ header, header = magic ++ leBytes 2 formatVersion ++ leBytes 2 0
    ++ leBytes 8 count := ⟨_, rfl⟩
  have hframe : frame count payload = header ++ payload := by rw [hheader, frame]
  have hlen : header.length = headerLen := by
    rw [hheader]
    simp [magic, headerLen]
  have hslice : slice (frame count payload) 0 headerLen = some header := by
    rw [hframe, ← hlen]
    simpa using slice_append [] header payload
  have hmagic : header.take 4 = magic := by rw [hheader]; rfl
  have hversion : leNat ((header.drop 4).take 2) = formatVersion := by rw [hheader]; rfl
  have hflags : leNat ((header.drop 6).take 2) = 0 := by rw [hheader]; rfl
  have hcount' : leNat ((header.drop 8).take 8) = count := by
    have hbytes : (header.drop 8).take 8 = leBytes 8 count := by rw [hheader]; rfl
    rw [hbytes, leNat_leBytes]
    rw [u64Max] at hcount
    omega
  refine ⟨?_, by rw [hframe, ← hlen, List.drop_left]⟩
  rw [readHeader, hlimit, hslice]
  simp only [ok_bind, okOr_some, hmagic, hversion, hflags, hcount', require_of]
  rfl

/-- What a successful encoding has written, and where it leaves the table. -/
lemma encodeUpdates_eq_ok {base : Config} {updates : List (List UInt8)} {t u : DeltaTable}
    {f : List UInt8} (h : encodeUpdates base updates t = (ok f, u)) :
    f = frame updates.length ((plan t updates).flatMap Entry.encode) ∧
      u = t.insertedAll (literals (plan t updates)) ∧
      headerLen + ((plan t updates).flatMap Entry.encode).length ≤ u64Max ∧
      base.enforceByteLimit (headerLen + ((plan t updates).flatMap Entry.encode).length) = ok () := by
  rw [encodeUpdates, Act.bind_run, encodeEntries_run, List.nil_append] at h
  dsimp only at h
  rw [checkedAdd] at h
  split at h
  · next hfits =>
      rw [okOr_some, lift_ok_bind_run] at h
      cases hlimit : base.enforceByteLimit
        (headerLen + ((plan t updates).flatMap Entry.encode).length) with
      | ok _ =>
          rw [hlimit, lift_ok_bind_run] at h
          simp only [Act.pure_run, Prod.mk.injEq, Outcome.ok.injEq] at h
          exact ⟨h.1.symm, h.2.symm, hfits, rfl⟩
      | err e =>
          rw [hlimit] at h
          simp at h
      | panic =>
          rw [hlimit] at h
          simp at h
      | diverge =>
          rw [hlimit] at h
          simp at h
  · simp at h

/-- Every update takes at least one byte. -/
lemma length_le_plan (t : DeltaTable) (updates : List (List UInt8)) :
    updates.length ≤ ((plan t updates).flatMap Entry.encode).length := by
  induction updates generalizing t with
  | nil => exact Nat.zero_le _
  | cons value updates ih =>
      rw [plan]
      cases t.lookup value with
      | some index =>
          have hrest := ih t
          simp only [List.length_cons, List.flatMap_cons, List.length_append, Entry.encode]
          omega
      | none =>
          have hrest := ih (t.inserted value)
          simp only [List.length_cons, List.flatMap_cons, List.length_append, Entry.encode]
          omega

lemma frame_length (count : ℕ) (payload : List UInt8) :
    (frame count payload).length = headerLen + payload.length := by
  simp only [frame, magic, headerLen, List.length_append, List.length_cons, List.length_nil,
    length_leBytes]

/-- A frame comes back as the batch, against a table in the state of the encoder's. -/
lemma decodeUpdates_encoded {base : Config} {updates : List (List UInt8)} {t u : DeltaTable}
    {input : Input} (hcap : 24 * updates.length ≤ isizeMax)
    (h : encodeUpdates base updates t = (ok input.bytes, u)) :
    decodeUpdates base input t = (ok updates, u) := by
  obtain ⟨hinput, rfl, hfits, hlimit⟩ := encodeUpdates_eq_ok h
  have hcount : updates.length ≤ u64Max := by
    have hle := length_le_plan t updates
    omega
  rw [← frame_length updates.length] at hlimit
  obtain ⟨hheader, hpayload⟩ := readHeader_frame hcount hlimit
  have hrun := decodeEntries_plan updates [] [] t []
    (by simp only [List.nil_append, List.append_nil]; omega)
  simp only [here, List.nil_append, List.append_nil, List.length_nil] at hrun
  have hfinish := finish_here ((plan t updates).flatMap Entry.encode)
  rw [here, List.append_nil] at hfinish
  rw [decodeUpdates, hinput, hheader, lift_ok_bind_run]
  simp only [hpayload, withCapacity_of_le hcap, Bool.false_eq_true, if_false,
    lift_ok_bind_run]
  rw [Act.bind_of_ok hrun]
  dsimp only
  rw [hfinish, lift_ok_bind_run, Act.pure_run]

/-! ## Streams -/

/-- A batch of updates, as the vector that a decoder returns. -/
abbrev Batch : Type := Slice 24 (List UInt8)

/-- One end encodes the batches in order: the frames, and its table after each. -/
inductive Sends (base : Config) : DeltaTable → List Batch → List Input → List DeltaTable → Prop
  | nil (t : DeltaTable) : Sends base t [] [] []
  | cons {t u : DeltaTable} {batch : Batch} {batches : List Batch} {input : Input}
      {inputs : List Input} {tables : List DeltaTable}
      (h : encodeUpdates base batch.elems t = (ok input.bytes, u))
      (rest : Sends base u batches inputs tables) :
      Sends base t (batch :: batches) (input :: inputs) (u :: tables)

/-- One end decodes the frames in order: what each returns, and its table after each. -/
inductive Receives (base : Config) :
    DeltaTable → List Input → List (List (List UInt8)) → List DeltaTable → Prop
  | nil (t : DeltaTable) : Receives base t [] [] []
  | cons {t u : DeltaTable} {input : Input} {inputs : List Input} {updates : List (List UInt8)}
      {rest : List (List (List UInt8))} {tables : List DeltaTable}
      (h : decodeUpdates base input t = (ok updates, u))
      (hrest : Receives base u inputs rest tables) :
      Receives base t (input :: inputs) (updates :: rest) (u :: tables)

/-- The batches come back in order, and the tables agree after every frame. -/
theorem receives_of_sends {base : Config} {t : DeltaTable} {batches : List Batch}
    {inputs : List Input} {tables : List DeltaTable} (h : Sends base t batches inputs tables) :
    Receives base t inputs (batches.map Slice.elems) tables := by
  induction h with
  | nil t => exact .nil t
  | cons hframe _ ih => exact .cons (decodeUpdates_encoded (Slice.length_le _) hframe) ih

/-- A literal evicts the entry before it, in a table of one entry. -/
theorem receives_of_sends_evicting :
    Receives Config.standard ⟨[[2]], 1, by decide, by decide⟩
      [⟨magic ++ [1, 0, 0, 0, 2, 0, 0, 0, 0, 0, 0, 0, 0, 0, 1, 1, 1], by decide⟩]
      [[[2], [1]]] [⟨[[1]], 1, by decide, by decide⟩] := by
  have hsends : Sends Config.standard ⟨[[2]], 1, by decide, by decide⟩ [⟨[[2], [1]], by decide⟩]
      [⟨magic ++ [1, 0, 0, 0, 2, 0, 0, 0, 0, 0, 0, 0, 0, 0, 1, 1, 1], by decide⟩]
      [⟨[[1]], 1, by decide, by decide⟩] := .cons rfl (.nil _)
  exact receives_of_sends hsends

end RustBinary.Delta
