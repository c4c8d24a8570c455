import RustBinary.Parallel.Sequential

/-!
# Which batches are accepted

A batch is accepted exactly when it is spelled as a frame within the limits of the configuration,
with payloads that are accepted one by one: what the workers are, and in which order they take
their steps, is not seen.  Where a payload tells its value apart, an accepted frame is written
again as it was.
-/

namespace RustBinary

open Lib Lib.Act

namespace Cursor

/-- An announced size that is not there turns no spelling away, if each spelling is as long. -/
lemma spells_announced {α : Type} {size : Option ℕ} {e e' : Error} {m : Act Cursor Error α}
    {L : α → List UInt8 → Prop} (hm : Spells Always m L)
    (hsize : ∀ a bs, L a bs → bs.length ≤ isizeMax → ∃ n, size = some n ∧ n ≤ bs.length) :
    Spells Always (do
      let n ← okOr size e
      let cursor ← get
      call (Outcome.require (n ≤ cursor.remaining) e')
      m) L := by
  intro s hs hhere a t
  have hspelled : ∀ bs, L a bs → Tape.Here s bs → ∃ n, size = some n ∧ n ≤ s.remaining := by
    intro bs hL hbs
    have hle := length_le_remaining hbs
    have hremaining : s.remaining ≤ isizeMax := by
      have hinput := s.input.length_le
      rw [remaining]
      omega
    obtain ⟨n, hn, hnle⟩ := hsize a bs hL (hle.trans hremaining)
    exact ⟨n, hn, hnle.trans hle⟩
  by_cases hroom : ∃ n, size = some n ∧ n ≤ s.remaining
  · obtain ⟨n, rfl, hn⟩ := hroom
    rw [okOr_some, pure_bind_run, get_bind_run, Outcome.require_of hn]
    exact hm s hs hhere a t
  · constructor
    · intro h
      obtain ⟨n, u, hn, hcheck⟩ := bind_eq_ok.mp h
      obtain ⟨hsome, rfl⟩ := okOr_eq_ok.mp hn
      have hmissing : ¬ n ≤ u.remaining := fun hle => hroom ⟨n, hsome, hle⟩
      rw [get_bind_run, Outcome.require, if_neg hmissing] at hcheck
      cases hcheck
    · rintro ⟨bs, hL, hbs, -⟩
      exact absurd (hspelled bs hL hbs) hroom

end Cursor

namespace Parallel

open Lib.Outcome

namespace ParallelConfig

open Cursor

/-! ## Spellings -/

lemma length_words (lengths : List ℕ) :
    (lengths.flatMap (leBytes 8)).length = 8 * lengths.length := by
  induction lengths with
  | nil => rfl
  | cons length lengths ih =>
      rw [List.flatMap_cons, List.length_append, ih, length_leBytes, List.length_cons]
      omega

lemma spells_lengths (count : ℕ) :
    Spells Always (parseLengths count) fun lengths bs => lengths.length = count ∧
      (∀ length ∈ lengths, length < 2 ^ 64) ∧ bs = lengths.flatMap (leBytes 8) := by
  induction count with
  | zero =>
      refine (Spells.pure []).congr fun lengths bs => ?_
      constructor
      · rintro ⟨rfl, rfl⟩
        exact ⟨rfl, List.forall_mem_nil _, rfl⟩
      · rintro ⟨hnil, -, rfl⟩
        rw [List.length_eq_zero_iff.mp hnil]
        exact ⟨rfl, rfl⟩
  | succ count ih =>
      refine ((spells_number 8).bind steady_always fun length =>
        ih.bind steady_always fun rest => Spells.pure (length :: rest)).congr fun lengths bs => ?_
      constructor
      · rintro ⟨length, _, _, ⟨hlength, rfl⟩, ⟨rest, _, _, ⟨rfl, hrest, rfl⟩, ⟨rfl, rfl⟩, rfl⟩, rfl⟩
        refine ⟨rfl, List.forall_mem_cons.mpr ⟨hlength, hrest⟩, ?_⟩
        rw [List.append_nil, List.flatMap_cons]
      · rintro ⟨hcount, hlengths, rfl⟩
        obtain ⟨length, rest, rfl⟩ := List.exists_cons_of_length_eq_add_one hcount
        obtain ⟨hlength, hrest⟩ := List.forall_mem_cons.mp hlengths
        refine ⟨length, _, _, ⟨hlength, rfl⟩, ⟨rest, _, [], ⟨Nat.succ.inj hcount, hrest, rfl⟩,
          ⟨rfl, rfl⟩, rfl⟩, ?_⟩
        rw [List.append_nil, List.flatMap_cons]

lemma spells_table (count : ℕ) :
    Spells Always (parseTable count) fun lengths bs => lengths.length = count ∧
      (∀ length ∈ lengths, length < 2 ^ 64) ∧ bs = lengths.flatMap (leBytes 8) := by
  refine spells_announced (spells_lengths count) ?_
  rintro lengths bs ⟨rfl, -, rfl⟩ hle
  rw [length_words] at hle ⊢
  refine ⟨lengths.length * 8, if_pos ?_, by omega⟩
  rw [isizeMax] at hle
  rw [u64Max]
  omega

lemma spells_takeAll (lengths : List ℕ) :
    Spells Always (takeAll lengths) fun payloads bs =>
      payloads.map List.length = lengths ∧ bs = payloads.flatten := by
  induction lengths with
  | nil =>
      refine (Spells.pure []).congr fun payloads bs => ?_
      rw [List.map_eq_nil_iff]
      constructor
      · rintro ⟨rfl, rfl⟩
        exact ⟨rfl, rfl⟩
      · rintro ⟨rfl, rfl⟩
        exact ⟨rfl, rfl⟩
  | cons length lengths ih =>
      refine ((spells_take length).bind steady_always fun payload =>
        ih.bind steady_always fun rest => Spells.pure (payload :: rest)).congr fun payloads bs => ?_
      constructor
      · rintro ⟨payload, _, _, ⟨rfl, rfl⟩, ⟨rest, _, _, ⟨rfl, rfl⟩, ⟨rfl, rfl⟩, rfl⟩, rfl⟩
        rw [List.append_nil]
        exact ⟨rfl, rfl⟩
      · rintro ⟨hmap, rfl⟩
        obtain ⟨payload, rest, rfl, rfl, rfl⟩ := List.map_eq_cons_iff.mp hmap
        refine ⟨payload, _, _, ⟨rfl, rfl⟩, ⟨rest, _, [], ⟨rfl, rfl⟩, ⟨rfl, rfl⟩, rfl⟩, ?_⟩
        rw [List.append_nil, List.flatten_cons]

lemma spells_payloads (lengths : List ℕ) :
    Spells Always (parsePayloads lengths) fun payloads bs =>
      16 * lengths.length ≤ isizeMax ∧ payloads.map List.length = lengths ∧
        bs = payloads.flatten := by
  refine spells_announced (((Spells.require _ _).bind steady_always fun _ =>
    spells_takeAll lengths).congr fun payloads bs => ?_) ?_
  · constructor
    · rintro ⟨_, _, _, ⟨hroom, rfl⟩, ⟨hmap, rfl⟩, rfl⟩
      exact ⟨hroom, hmap, rfl⟩
    · rintro ⟨hroom, hmap, rfl⟩
      exact ⟨(), [], _, ⟨hroom, rfl⟩, ⟨hmap, rfl⟩, rfl⟩
  · rintro payloads bs ⟨-, rfl, rfl⟩ hle
    have hmax : isizeMax < u64Max := by decide
    refine ⟨_, totalLength_eq payloads (by omega), by omega⟩

/-- The header is spelled by the number of the payloads. -/
lemma spells_header :
    Spells Always parseHeader fun count bs => count < 2 ^ 64 ∧
      bs = magic ++ (leBytes 2 version ++ (leBytes 2 0 ++ leBytes 8 count)) := by
  refine ((spells_take 4).bind steady_always fun start => (Spells.require _ _).bind steady_always
    fun _ => (spells_number 2).bind steady_always fun format =>
    (Spells.require _ _).bind steady_always fun _ => (spells_number 2).bind steady_always
    fun flags => (Spells.require _ _).bind steady_always fun _ => spells_number 8).congr
    fun count bs => ?_
  constructor
  · rintro ⟨_, _, _, ⟨rfl, -⟩, ⟨_, _, _, ⟨rfl, rfl⟩, ⟨_, _, _, ⟨-, rfl⟩, ⟨_, _, _, ⟨rfl, rfl⟩,
      ⟨_, _, _, ⟨-, rfl⟩, ⟨_, _, _, ⟨rfl, rfl⟩, ⟨hcount, rfl⟩, rfl⟩, rfl⟩, rfl⟩, rfl⟩, rfl⟩, rfl⟩
    exact ⟨hcount, rfl⟩
  · rintro ⟨hcount, rfl⟩
    exact ⟨magic, _, _, ⟨rfl, rfl⟩, ⟨(), _, _, ⟨rfl, rfl⟩, ⟨version, _, _, ⟨by decide, rfl⟩,
      ⟨(), _, _, ⟨rfl, rfl⟩, ⟨0, _, _, ⟨by decide, rfl⟩, ⟨(), _, _, ⟨rfl, rfl⟩, ⟨hcount, rfl⟩,
      rfl⟩, rfl⟩, rfl⟩, rfl⟩, rfl⟩, rfl⟩

/-- A batch that a configuration makes room for. -/
structure Admits (base : Config) (payloads : List (List UInt8)) : Prop where
  collection : ∀ limit, base.collectionLimit = some limit → payloads.length ≤ limit
  room : 16 * payloads.length ≤ isizeMax

lemma spells_frame (base : Config) :
    Spells Always (parseFrame base) fun payloads bs => Admits base payloads ∧
      (payloads.length < 2 ^ 64 ∧ ∀ payload ∈ payloads, payload.length < 2 ^ 64) ∧
      bs = frame payloads := by
  refine (spells_header.bind steady_always fun count => (Spells.call _).bind steady_always
    fun _ => (spells_table count).bind steady_always fun lengths =>
    spells_payloads lengths).congr fun payloads bs => ?_
  constructor
  · rintro ⟨_, _, _, ⟨hcount, rfl⟩, ⟨_, _, _, ⟨hlimit, rfl⟩, ⟨_, _, _, ⟨rfl, hlengths, rfl⟩,
      ⟨hroom, rfl, rfl⟩, rfl⟩, rfl⟩, rfl⟩
    rw [List.length_map] at hcount hlimit hroom
    refine ⟨⟨Config.enforceCollectionLimit_eq_ok.mp hlimit, hroom⟩,
      ⟨hcount, fun payload hpayload => hlengths _ (List.mem_map_of_mem hpayload)⟩, ?_⟩
    simp only [frame, List.length_map, List.flatMap_map, List.append_assoc, List.nil_append]
  · rintro ⟨⟨hcollection, hroom⟩, ⟨hcount, hlengths⟩, rfl⟩
    refine ⟨payloads.length, _, _, ⟨hcount, rfl⟩, ⟨(), [], _,
      ⟨Config.enforceCollectionLimit_eq_ok.mpr hcollection, rfl⟩,
      ⟨payloads.map List.length, _, _, ⟨List.length_map _, ?_, rfl⟩, ⟨?_, rfl, rfl⟩, rfl⟩, rfl⟩, ?_⟩
    · exact List.forall_mem_map.mpr hlengths
    · rwa [List.length_map]
    · simp only [frame, List.flatMap_map, List.append_assoc, List.nil_append]

/-- What a batch has to be in front of the decoding. -/
lemma parse_eq_ok {base : Config} {input : Slice 1 UInt8} {payloads : List (List UInt8)} :
    parse base input = ok payloads ↔
      (∀ limit, base.limit = some limit → input.elems.length ≤ limit) ∧ Admits base payloads ∧
      ∃ rest, input.elems = frame payloads ++ rest ∧ (base.trailing = .reject → rest = []) := by
  rw [parse, Outcome.bind_eq_ok]
  simp only [Config.enforceByteLimit_eq_ok, exists_const, whole_eq_ok (spells_frame base)]
  refine and_congr_right fun _ => ?_
  constructor
  · rintro ⟨_, rest, ⟨hadmits, -, rfl⟩, hinput, htrailing⟩
    exact ⟨hadmits, rest, hinput, htrailing⟩
  · rintro ⟨hadmits, rest, hinput, htrailing⟩
    have hlength := input.length_le
    rw [hinput, List.length_append, length_frame, isizeMax] at hlength
    refine ⟨_, rest, ⟨hadmits, ⟨by omega, fun payload hpayload => ?_⟩, rfl⟩, hinput, htrailing⟩
    have hle := (List.sublist_flatten_of_mem hpayload).length_le
    omega

end ParallelConfig

open ParallelConfig

variable {T : Type}

/-- What an accepted batch is, whatever the number of workers. -/
lemma deserializeBatch_eq_ok {base : Config} {workers : ℕ+} {codec : PayloadCodec T} {size : ℕ}
    {input : Slice 1 UInt8} {values : List T} :
    deserializeBatch ⟨base, workers⟩ codec size input = ok values ↔
      (∀ limit, base.limit = some limit → input.elems.length ≤ limit) ∧
      size * values.length ≤ isizeMax ∧ ∃ payloads rest, Admits base payloads ∧
        input.elems = frame payloads ++ rest ∧ (base.trailing = .reject → rest = []) ∧
        List.Forall₂ (fun payload value => codec.deserialize payload = ok value)
          payloads values := by
  rw [deserializeBatch, Outcome.bind_eq_ok]
  simp only [mapErr_eq_ok, parallelMap_eq_ok, parse_eq_ok, mapAll_eq_ok]
  constructor
  · rintro ⟨payloads, ⟨hlimit, hadmits, rest, hinput, htrailing⟩, hsize, hall⟩
    rw [hall.length_eq] at hsize
    exact ⟨hlimit, hsize, payloads, rest, hadmits, hinput, htrailing, hall⟩
  · rintro ⟨hlimit, hsize, payloads, rest, hadmits, hinput, htrailing, hall⟩
    rw [← hall.length_eq] at hsize
    exact ⟨payloads, ⟨hlimit, hadmits, rest, hinput, htrailing⟩, hsize, hall⟩

/-- **Which batches are accepted.**  For all numbers of workers alike, a batch decodes to `values`
exactly when it is within the byte limit, is spelled as the frame of payloads that the limits of the
configuration and the memory admit, has nothing behind the frame unless trailing bytes are allowed,
and each payload decodes to its value.  If trailing bytes are rejected, and a payload that decodes
is the encoding of its value, every number of workers writes the accepted batch again. -/
theorem deserializeBatch_iff (base : Config) (workers : ℕ+) (codec : PayloadCodec T) (size : ℕ)
    (input : Slice 1 UInt8) (values : List T) :
    (deserializeBatch ⟨base, workers⟩ codec size input = ok values ↔
      (∀ limit, base.limit = some limit → input.elems.length ≤ limit) ∧
      size * values.length ≤ isizeMax ∧ ∃ payloads rest, Admits base payloads ∧
        input.elems = frame payloads ++ rest ∧ (base.trailing = .reject → rest = []) ∧
        List.Forall₂ (fun payload value => codec.deserialize payload = ok value) payloads values) ∧
    ((∀ payload value, codec.deserialize payload = ok value → codec.serialize value = ok payload) →
      base.trailing = .reject → 24 * values.length ≤ isizeMax →
      deserializeBatch ⟨base, workers⟩ codec size input = ok values →
      ∀ workers', serializeBatch ⟨base, workers'⟩ codec values = ok input.elems) := by
  refine ⟨deserializeBatch_eq_ok, fun hcanonical hreject hroom hread workers' => ?_⟩
  obtain ⟨hlimit, -, payloads, rest, hadmits, hinput, htrailing, hall⟩ :=
    deserializeBatch_eq_ok.mp hread
  rw [htrailing hreject, List.append_nil] at hinput
  have hlength := input.length_le
  rw [hinput] at hlimit hlength ⊢
  refine serializeBatch_eq_ok.mpr ⟨?_, hroom, payloads, ?_, hlimit, by omega, rfl⟩
  · rw [← hall.length_eq]
    exact hadmits.collection
  · refine mapAll_eq_ok.mpr (hall.flip.imp fun value payload hvalue => ?_)
    exact mapErr_eq_ok.mpr (hcanonical payload value hvalue)

/-- A batch of two bytes, for three workers and written again by one. -/
theorem deserializeBatch_iff_bytes :
    let input : Slice 1 UInt8 := ⟨frame [[7], [8]], by decide⟩
    deserializeBatch ⟨.standard, 3⟩ byteCodec 1 input = ok [7, 8] ∧
      serializeBatch ⟨.standard, 1⟩ byteCodec [7, 8] = ok input.elems := by
  intro input
  obtain ⟨hiff, hcanonical⟩ := deserializeBatch_iff .standard 3 byteCodec 1 input [7, 8]
  have hread := hiff.mpr ⟨by decide, by decide, [[7], [8]], [], ⟨by decide, by decide⟩, rfl,
    fun _ => rfl, .cons rfl (.cons rfl .nil)⟩
  refine ⟨hread, hcanonical ?_ rfl (by decide) hread 1⟩
  intro payload value hvalue
  match payload, hvalue with
  | [byte], hvalue => exact congrArg (fun byte => Outcome.ok [byte]) (Outcome.ok.inj hvalue).symm

end Parallel

end RustBinary
