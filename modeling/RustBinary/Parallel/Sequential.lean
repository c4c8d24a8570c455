import RustBinary.Parallel.Batch
import Mathlib.Data.List.Forall2

/-!
# Parallel and sequential

The pieces and the order in which the workers take their steps do not show in the result, unless a
worker that is not joined any more panics.
-/

namespace RustBinary.Parallel

open Lib Lib.Outcome

section Map

variable {I O : Type} {size : ℕ} {items : List I} {workers : ℕ+} {operation : I → Outcome Error O}

lemma chunkSize_pos {count : ℕ} (h : 0 < count) (workers : ℕ+) : 0 < chunkSize count workers := by
  have hworkers := workers.pos
  exact Nat.div_pos (by omega) (by omega)

lemma flatten_pieces (items : List I) (workers : ℕ+) : (pieces items workers).flatten = items := by
  cases items with
  | nil => rfl
  | cons item items => exact flatten_chunks (chunkSize_pos (Nat.succ_pos _) workers) _

lemma parallelMap_eq_ok {out : List O} :
    parallelMap size items workers operation = ok out ↔
      size * items.length ≤ isizeMax ∧ mapAll operation items = ok out := by
  rw [parallelMap]
  cases items with
  | nil => simp [mapAll]
  | cons item items =>
      rw [List.isEmpty_cons, if_neg Bool.false_ne_true]
      dsimp only
      split
      · next hle => rw [joinAll_eq_ok, flatten_pieces, and_iff_right hle]
      · next hle => exact iff_of_false (leave_ne_ok (by simp) out) fun h => hle h.1

/-- All workers have finished. -/
def Done (order : List ℕ) (items : List I) (workers : ℕ+) (operation : I → Outcome Error O) : Prop :=
  ∀ w ∈ runSchedule operation order (startAll (pieces items workers)), w.Finished

/-- The order of the steps does not matter. -/
lemma parallelMapAfter_eq {order : List ℕ} (h : Done order items workers operation) (size : ℕ) :
    parallelMapAfter order size items workers operation
      = parallelMap size items workers operation := by
  rw [parallelMapAfter, parallelMap, joined_of_finished operation h]

/-- The workers can finish, and whenever they have, the call comes back with what the sequential
map gives. -/
def Agrees (size : ℕ) (items : List I) (workers : ℕ+) (operation : I → Outcome Error O) : Prop :=
  (∃ order, Done order items workers operation) ∧
    ∀ order, Done order items workers operation →
      (parallelMapAfter order size items workers operation).Returned ∧
        parallelMapAfter order size items workers operation = sequentialMap items operation

lemma returned_eq_sequentialMap_iff :
    ((parallelMap size items workers operation).Returned ∧
        parallelMap size items workers operation = sequentialMap items operation) ↔
      size * items.length ≤ isizeMax ∧ Contained ((pieces items workers).map (mapAll operation)) := by
  rw [parallelMap, sequentialMap]
  cases items with
  | nil => simp [mapAll, caught, pieces, chunks, chunkLoop, Contained]
  | cons item items =>
      rw [List.isEmpty_cons, if_neg Bool.false_ne_true]
      dsimp only
      split
      · next hle =>
          rw [and_iff_right hle, ← @joinAll_eq_iff _ _ _ _ .parallelWorkerPanic, flatten_pieces]
      · next hle =>
          exact iff_of_false (fun h => not_returned_leave not_returned_panic h.1) fun h => hle h.1

lemma agrees_iff :
    Agrees size items workers operation ↔
      size * items.length ≤ isizeMax ∧ Contained ((pieces items workers).map (mapAll operation)) := by
  rw [← returned_eq_sequentialMap_iff]
  constructor
  · rintro ⟨⟨order, hdone⟩, h⟩
    have hagrees := h order hdone
    rwa [parallelMapAfter_eq hdone] at hagrees
  · intro h
    refine ⟨exists_schedule operation fun w hw => ?_, fun order hdone => ?_⟩
    · have hcontained := (returned_eq_sequentialMap_iff.mp h).2
      refine hcontained.ne_diverge _ ?_
      rw [← map_result_startAll operation]
      exact List.mem_map_of_mem hw
    · rw [parallelMapAfter_eq hdone]
      exact h

end Map

/-! ## Batches -/

namespace ParallelConfig

variable {T : Type}

lemma requiredSize_eq_some {required size : ℕ} {payloads : List (List UInt8)}
    (h : required ≤ u64Max) :
    requiredSize required payloads = some size ↔
      size = required + payloads.flatten.length ∧ size ≤ u64Max := by
  induction payloads generalizing required with
  | nil =>
      simp only [requiredSize, Option.some.injEq, List.flatten_nil, List.length_nil]
      omega
  | cons payload payloads ih =>
      rw [requiredSize, List.flatten_cons, List.length_append]
      constructor
      · intro h
        obtain ⟨next, hnext, h⟩ := Option.bind_eq_some_iff.mp h
        rw [checkedAdd, Option.ite_none_right_eq_some, Option.some.injEq] at hnext
        obtain ⟨rfl, hle⟩ := (ih (by omega)).mp h
        omega
      · rintro ⟨rfl, hle⟩
        rw [checkedAdd, if_pos (by omega), Option.bind_eq_bind, Option.bind_some]
        exact (ih (by omega)).mpr ⟨by omega, hle⟩

lemma length_table (payloads : List (List UInt8)) :
    (payloads.flatMap fun payload => leBytes 8 payload.length).length = 8 * payloads.length := by
  induction payloads with
  | nil => rfl
  | cons payload payloads ih =>
      rw [List.flatMap_cons, List.length_append, ih, length_leBytes, List.length_cons]
      omega

lemma length_frame (payloads : List (List UInt8)) :
    (frame payloads).length = headerSize + payloads.length * 8 + payloads.flatten.length := by
  simp only [frame, List.length_append, length_leBytes, length_table, magic, headerSize,
    List.length_cons, List.length_nil]
  omega

/-- What a written batch says: every value is serialized, and the frame is within the limits. -/
lemma serializeBatch_eq_ok {c : ParallelConfig} {codec : PayloadCodec T} {values : List T}
    {bytes : List UInt8} :
    c.serializeBatch codec values = ok bytes ↔
      (∀ limit, c.base.collectionLimit = some limit → values.length ≤ limit) ∧
      24 * values.length ≤ isizeMax ∧ ∃ payloads,
        mapAll (fun value => (codec.serialize value).mapErr Error.base) values = ok payloads ∧
        (∀ limit, c.base.limit = some limit → (frame payloads).length ≤ limit) ∧
        (frame payloads).length ≤ isizeMax ∧ bytes = frame payloads := by
  rw [serializeBatch]
  simp only [bind_eq_ok, okOr_eq_ok, require_eq_ok, pure_eq_ok, Outcome.ok.injEq,
    mapErr_eq_ok, Config.enforceByteLimit_eq_ok, Config.enforceCollectionLimit_eq_ok,
    parallelMap_eq_ok, exists_const, checkedMul, checkedAdd, Option.ite_none_right_eq_some,
    Option.some.injEq]
  constructor
  · rintro ⟨hcollection, payloads, ⟨hroom, hmap⟩, _, ⟨-, rfl⟩, _, ⟨hheader, rfl⟩, required, hrequired,
      hlimit, hsize, rfl⟩
    have hlen := (mapAll_eq_ok.mp hmap).length_eq
    obtain ⟨rfl, -⟩ := (requiredSize_eq_some hheader).mp hrequired
    rw [hlen, ← length_frame] at hlimit hsize
    exact ⟨hcollection, hroom, payloads, hmap, hlimit, hsize, rfl⟩
  · rintro ⟨hcollection, hroom, payloads, hmap, hlimit, hsize, rfl⟩
    have hlen := (mapAll_eq_ok.mp hmap).length_eq
    have hmax : (frame payloads).length ≤ u64Max := hsize.trans (by decide)
    rw [length_frame, ← hlen] at hlimit hsize hmax
    refine ⟨hcollection, payloads, ⟨hroom, hmap⟩, _, ⟨by omega, rfl⟩, _, ⟨by omega, rfl⟩, _,
      (requiredSize_eq_some (by omega)).mpr ⟨rfl, hmax⟩, hlimit, hsize, rfl⟩

/-! ## Reading a batch -/

lemma reads_lengths (payloads : List (List UInt8)) (h : payloads.flatten.length < 2 ^ 64) :
    Reads (parseLengths payloads.length) (payloads.map List.length)
      (payloads.flatMap fun payload => leBytes 8 payload.length) := by
  induction payloads with
  | nil => exact Reads.pure []
  | cons payload payloads ih =>
      rw [List.flatten_cons, List.length_append] at h
      exact (Cursor.reads_number (by omega)).bind ((ih (by omega)).bind_pure)

lemma reads_takeAll (payloads : List (List UInt8)) :
    Reads (takeAll (payloads.map List.length)) payloads payloads.flatten := by
  induction payloads with
  | nil => exact Reads.pure []
  | cons payload payloads ih => exact (Cursor.reads_take payload).bind ih.bind_pure

lemma reads_header {count : ℕ} (h : count < 2 ^ 64) :
    Reads parseHeader count
      (magic ++ (leBytes 2 version ++ (leBytes 2 0 ++ leBytes 8 count))) := by
  refine (Cursor.reads_take magic).bind (Reads.require_bind rfl _ ?_)
  refine (Cursor.reads_number (by decide)).bind (Reads.require_bind rfl _ ?_)
  refine (Cursor.reads_number (by decide)).bind (Reads.require_bind rfl _ ?_)
  exact Cursor.reads_number (by omega)

lemma reads_table {payloads : List (List UInt8)} (h : 8 * payloads.length ≤ u64Max)
    (htotal : payloads.flatten.length < 2 ^ 64) :
    Reads (parseTable payloads.length) (payloads.map List.length)
      (payloads.flatMap fun payload => leBytes 8 payload.length) := by
  intro s hhere
  have hleft := Cursor.length_le_remaining hhere
  rw [length_table, Nat.mul_comm] at hleft
  rw [parseTable, checkedMul, if_pos (by rwa [Nat.mul_comm]), Act.okOr_some, pure_bind,
    Act.get_bind_run, Outcome.require_of hleft]
  exact reads_lengths payloads htotal s hhere

lemma totalLength_eq {total : ℕ} (payloads : List (List UInt8))
    (h : total + payloads.flatten.length ≤ u64Max) :
    totalLength total (payloads.map List.length) = some (total + payloads.flatten.length) := by
  induction payloads generalizing total with
  | nil => rfl
  | cons payload payloads ih =>
      rw [List.flatten_cons, List.length_append] at h
      rw [List.map_cons, totalLength, checkedAdd, if_pos (by omega), Option.bind_eq_bind,
        Option.bind_some, ih (by omega), List.flatten_cons, List.length_append, Nat.add_assoc]

lemma reads_payloads {payloads : List (List UInt8)} (h : 16 * payloads.length ≤ isizeMax)
    (htotal : payloads.flatten.length ≤ u64Max) :
    Reads (parsePayloads (payloads.map List.length)) payloads payloads.flatten := by
  intro s hhere
  have hleft := Cursor.length_le_remaining hhere
  have hroom : 16 * (payloads.map List.length).length ≤ isizeMax := by rwa [List.length_map]
  rw [parsePayloads, totalLength_eq payloads (by rwa [Nat.zero_add]), Nat.zero_add, Act.okOr_some,
    pure_bind, Act.get_bind_run, Outcome.require_of hleft]
  exact (Reads.require_bind hroom _ (reads_takeAll payloads)) s hhere

lemma reads_frame {base : Config} {payloads : List (List UInt8)}
    (hcollection : ∀ limit, base.collectionLimit = some limit → payloads.length ≤ limit)
    (hroom : 16 * payloads.length ≤ isizeMax) (hsize : (frame payloads).length ≤ isizeMax) :
    Reads (parseFrame base) payloads (frame payloads) := by
  rw [length_frame] at hsize
  have hmax : isizeMax < u64Max := by decide
  have hpow : u64Max < 2 ^ 64 := by decide
  have hframe : frame payloads = (magic ++ (leBytes 2 version ++ (leBytes 2 0 ++
      leBytes 8 payloads.length))) ++ ((payloads.flatMap fun payload => leBytes 8 payload.length)
        ++ payloads.flatten) := by
    simp only [frame, List.append_assoc]
  rw [hframe]
  refine (reads_header (by omega)).bind ?_
  have hlimit : base.enforceCollectionLimit payloads.length = ok () :=
    Config.enforceCollectionLimit_eq_ok.mpr hcollection
  rw [hlimit]
  exact (reads_table (by omega) (by omega)).bind (reads_payloads hroom (by omega))

/-- Every batch that is written is read back, whatever the numbers of workers are. -/
lemma deserializeBatch_serializeBatch {base : Config} {codec : PayloadCodec T} {size : ℕ}
    {values : Slice size T} {bytes : List UInt8} {workers : ℕ+}
    (h : serializeBatch ⟨base, workers⟩ codec values.elems = ok bytes) (workers' : ℕ+) :
    serializeBatch ⟨base, workers'⟩ codec values.elems = ok bytes ∧
      ∃ input : Slice 1 UInt8, input.elems = bytes ∧
        deserializeBatch ⟨base, workers'⟩ codec size input = ok values.elems := by
  obtain ⟨hcollection, hroom, payloads, hmap, hlimit, hsize, rfl⟩ := serializeBatch_eq_ok.mp h
  refine ⟨serializeBatch_eq_ok.mpr ⟨hcollection, hroom, payloads, hmap, hlimit, hsize, rfl⟩, ?_⟩
  have hall := mapAll_eq_ok.mp hmap
  have hlen := hall.length_eq
  refine ⟨⟨frame payloads, by rwa [Nat.one_mul]⟩, rfl, ?_⟩
  have hparse : parse base ⟨frame payloads, by rwa [Nat.one_mul]⟩ = ok payloads := by
    rw [parse, show base.enforceByteLimit (frame payloads).length = ok () from
      Config.enforceByteLimit_eq_ok.mpr hlimit, ok_bind]
    exact Cursor.whole_of_reads (reads_frame (by rwa [← hlen]) (by omega) hsize) _
  rw [deserializeBatch, hparse]
  refine parallelMap_eq_ok.mpr ⟨?_, ?_⟩
  · rw [← hlen]
    exact values.length_le
  · refine mapAll_eq_ok.mpr (hall.flip.imp fun payload value hserialize => ?_)
    rw [mapErr_eq_ok] at hserialize ⊢
    exact codec.deserialize_serialize value payload hserialize

end ParallelConfig

/-- The call comes back with what the sequential map gives, whatever the order of the steps, exactly
when the results fit and every worker behind the first that fails returns; and every batch that is
written reads back, with any numbers of workers. -/
theorem parallelMap_agrees_iff {I O : Type} (size : ℕ) (items : List I) (workers : ℕ+)
    (operation : I → Outcome Error O) :
    (Agrees size items workers operation ↔
      size * items.length ≤ isizeMax ∧
        Contained ((pieces items workers).map (mapAll operation))) ∧
    ∀ {T : Type} (codec : PayloadCodec T) (base : Config) (workers workers' : ℕ+) (size : ℕ)
      (values : Slice size T) (bytes : List UInt8),
      ParallelConfig.serializeBatch ⟨base, workers⟩ codec values.elems = ok bytes →
        ParallelConfig.serializeBatch ⟨base, workers'⟩ codec values.elems = ok bytes ∧
          ∃ input : Slice 1 UInt8, input.elems = bytes ∧
            ParallelConfig.deserializeBatch ⟨base, workers'⟩ codec size input = ok values.elems :=
  ⟨agrees_iff, fun _ _ _ workers' _ _ _ h =>
    ParallelConfig.deserializeBatch_serializeBatch h workers'⟩

/-- Bytes that are serialized as themselves. -/
def byteCodec : PayloadCodec UInt8 where
  serialize value := .ok [value]
  deserialize payload := match payload with
    | [value] => .ok value
    | _ => .err .unexpectedEnd
  deserialize_serialize := by
    rintro value payload ⟨⟩
    rfl

theorem parallelMap_agrees_iff_bytes :
    ParallelConfig.serializeBatch ⟨.standard, 2⟩ byteCodec [7, 8, 9] =
        ok (ParallelConfig.frame [[7], [8], [9]]) ∧
      ∃ input : Slice 1 UInt8, input.elems = ParallelConfig.frame [[7], [8], [9]] ∧
        ParallelConfig.deserializeBatch ⟨.standard, 2⟩ byteCodec 1 input = ok [7, 8, 9] :=
  (parallelMap_agrees_iff 1 [true] 2 fun item => ok item).2 byteCodec .standard 1 2 1
    ⟨[7, 8, 9], by decide⟩ _ (by decide +kernel)

/-- The first item fails and the second one panics. -/
def failOrPanic : Bool → Outcome Error Unit
  | false => .err (.base .unexpectedEnd)
  | true => .panic

/-- The error of the first worker makes the call leave the scope before it joins the second. -/
theorem parallelMap_failOrPanic :
    parallelMap 0 [false, true] 2 failOrPanic = .panic ∧
      sequentialMap [false, true] failOrPanic = .err (.base .unexpectedEnd) ∧
      ¬ Agrees 0 [false, true] 2 failOrPanic := by
  have hpanic : parallelMap 0 [false, true] 2 failOrPanic = .panic := by decide
  refine ⟨hpanic, by decide, fun h => ?_⟩
  obtain ⟨order, hdone⟩ := h.1
  have hreturned := (h.2 order hdone).1
  rw [parallelMapAfter_eq hdone, hpanic] at hreturned
  exact hreturned

end RustBinary.Parallel
