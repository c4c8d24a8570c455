import RustBinary.Adaptive.Reading

/-!
# Integer collections there and back

Every strategy writes words from which its loop gets the values back, so the choice of a strategy
is about the size only.  What the encoder writes is the frame of the strategy that it chose, to
the byte, and the decoder reads all of it.
-/

namespace RustBinary.Adaptive

open Lib Lib.Act Cursor Decoding

/-- The text of a list of words. -/
def spell (ws : List ℕ) : List UInt8 := ws.flatMap encodeVarintLe

@[simp] lemma spell_nil : spell [] = [] := rfl

@[simp] lemma spell_cons (w : ℕ) (ws : List ℕ) : spell (w :: ws) = encodeVarintLe w ++ spell ws :=
  List.flatMap_cons

/-! ## The loops on what the strategies write -/

lemma oneByOne_of {values : List Int64} {s : Decoding}
    (hhere : Tape.Here s.cursor (spell (values.map zigzagI64))) :
    oneByOne values.length s = (.ok (), s.after (spell (values.map zigzagI64)).length values) := by
  induction values generalizing s with
  | nil =>
      exact pure_after s
  | cons value rest ih =>
      rw [List.map_cons, spell_cons] at hhere ⊢
      obtain ⟨hhead, htail⟩ := (Tape.here_append _ _ _).mp hhere
      obtain ⟨hword, hvalue⟩ := decodeI64_zigzagI64 value
      rw [List.length_cons, oneByOne, bind_of_ok (rawValue_of hword hvalue hhead), ih htail,
        after_after, List.length_append]
      rfl

/-- The difference of two values fits into 128 bits. -/
lemma fitsI128_sub (left right : Int64) : FitsI128 (left.toInt - right.toInt) := by
  have h₁ := left.le_toInt
  have h₂ := left.toInt_lt
  have h₃ := right.le_toInt
  have h₄ := right.toInt_lt
  constructor <;> omega

/-- A difference, at the cursor, gives the next value. -/
lemma deltaRound_of {s : Decoding} {previous next : Int64}
    (hprevious : s.values.getLast? = some previous)
    (hhere : Tape.Here s.cursor (encodeVarintLe (zigzagI128 (next.toInt - previous.toInt)))) :
    deltaRound s = (.ok (), s.after
      (encodeVarintLe (zigzagI128 (next.toInt - previous.toInt))).length [next]) := by
  obtain ⟨hle, hlt⟩ := fitsI128_sub next previous
  obtain ⟨hword, hdecode⟩ := zigzagDecode_zigzagEncode hle hlt
  have hread : (decodeI128 <$> reading varint) s = (.ok (next.toInt - previous.toInt),
      s.after (encodeVarintLe (zigzagI128 (next.toInt - previous.toInt))).length []) := by
    rw [map_of_ok (reading_of spells_varint ⟨hword, rfl⟩ hhere), decodeI128, zigzagI128, hdecode]
  have hnext : (checkedAddI128 previous.toInt (next.toInt - previous.toInt)).bind toI64 =
      some next := by
    have h₁ := next.le_toInt
    have h₂ := next.toInt_lt
    rw [checkedAddI128, add_sub_cancel, if_pos ⟨by omega, by omega⟩, Option.bind_some,
      toI64_toInt]
  rw [deltaRound, bind_of_ok hread, get_bind_run, Decoding.after, List.append_nil, hprevious]
  rw [Outcome.orPanic_some]
  refine (bind_of_ok (call_run _ _)).trans ?_
  rw [hnext, okOr_some, pure_bind_run]
  rfl

/-- The differences give the values behind the first one. -/
lemma whileShort_delta {previous : Int64} {values : List Int64} {ws : List ℕ} {s : Decoding}
    {length rounds : ℕ} (hws : deltas (previous :: values) = .ok ws)
    (hprevious : s.values.getLast? = some previous)
    (hlength : length = s.values.length + values.length)
    (hrounds : values.length < rounds) (hhere : Tape.Here s.cursor (spell ws)) :
    whileShort length deltaRound rounds s = (.ok (), s.after (spell ws).length values) := by
  induction values generalizing previous ws s rounds with
  | nil =>
      obtain ⟨rounds, rfl⟩ : ∃ n, rounds = n + 1 := ⟨rounds - 1, by omega⟩
      cases hws
      rw [whileShort, get_bind_run, if_neg (by rw [hlength, List.length_nil]; omega)]
      exact pure_after s
  | cons next rest ih =>
      obtain ⟨rounds, rfl⟩ : ∃ n, rounds = n + 1 := ⟨rounds - 1, by omega⟩
      rw [deltas] at hws
      obtain ⟨delta, hdelta, hws⟩ := Outcome.bind_eq_ok.mp hws
      obtain ⟨ws', hws', hws⟩ := Outcome.bind_eq_ok.mp hws
      cases hws
      rw [subI128, if_pos (fitsI128_sub next previous)] at hdelta
      cases hdelta
      rw [spell_cons] at hhere
      obtain ⟨hhead, htail⟩ := (Tape.here_append _ _ _).mp hhere
      rw [List.length_cons] at hlength hrounds
      have hround := deltaRound_of hprevious hhead
      rw [whileShort, get_bind_run, if_pos (by omega), bind_of_ok hround]
      rw [ih hws' (by simp [Decoding.after]) (by simp [Decoding.after, hlength]; omega) (by omega)
        htail, after_after, spell_cons, List.length_append]
      rfl

/-- A run, at the cursor. -/
lemma runRound_of (length : ℕ) {s : Decoding} {value : Int64} {run : ℕ} (hpos : 0 < run)
    (hrun : run ≤ length - s.values.length) (hmax : run ≤ u64Max)
    (hhere : Tape.Here s.cursor (spell [zigzagI64 value, run])) :
    runRound length s = (.ok (), s.after (spell [zigzagI64 value, run]).length
      (List.replicate run value)) := by
  rw [spell_cons] at hhere
  obtain ⟨hhead, htail⟩ := (Tape.here_append _ _ _).mp hhere
  rw [spell_cons, spell_nil, List.append_nil] at htail
  obtain ⟨hword, hvalue⟩ := decodeI64_zigzagI64 value
  have hread := reading_of spells_usizeVarint
    (s := s.after (encodeVarintLe (zigzagI64 value)).length []) ⟨hmax, rfl⟩ htail
  rw [runRound, bind_of_ok (reading_of spells_varint ⟨hword, rfl⟩ hhead), hvalue]
  refine (bind_of_ok (call_run _ _)).trans ?_
  rw [bind_of_ok hread, get_bind_run, after_after, List.append_nil]
  have hvalues : (s.after ((encodeVarintLe (zigzagI64 value)).length +
      (encodeVarintLe run).length) []).values = s.values := List.append_nil _
  rw [if_neg (by rw [hvalues]; omega), emit_after, List.nil_append, spell_cons, spell_cons,
    spell_nil, List.append_nil, List.length_append]

/-- The words of the runs. -/
def runWords (rounds : ℕ) (values : List Int64) : List ℕ :=
  (runs rounds values).flatMap fun run => [zigzagI64 run.1, run.2]

/-- The values that a list begins with, when they are all the same. -/
lemma takeWhile_eq_replicate (value : Int64) (values : List Int64) :
    values.takeWhile (fun other => other = value) =
      List.replicate (values.takeWhile fun other => other = value).length value := by
  refine List.eq_replicate_iff.mpr ⟨rfl, fun other hother => ?_⟩
  simpa using List.mem_takeWhile_imp hother

/-- The runs give the values. -/
lemma whileShort_runs {rounds : ℕ} {values : List Int64} {s : Decoding} {length rounds' : ℕ}
    (hvalues : values.length ≤ rounds) (hlength : length = s.values.length + values.length)
    (hmax : length ≤ u64Max) (hrounds : values.length < rounds')
    (hhere : Tape.Here s.cursor (spell (runWords rounds values))) :
    whileShort length (runRound length) rounds' s =
      (.ok (), s.after (spell (runWords rounds values)).length values) := by
  induction rounds generalizing values s rounds' with
  | zero =>
      obtain rfl : values = [] := List.length_eq_zero_iff.mp (by omega)
      obtain ⟨rounds', rfl⟩ : ∃ n, rounds' = n + 1 := ⟨rounds' - 1, by omega⟩
      rw [whileShort, get_bind_run, if_neg (by rw [hlength, List.length_nil]; omega)]
      exact pure_after s
  | succ rounds ih =>
      obtain ⟨rounds', rfl⟩ : ∃ n, rounds' = n + 1 := ⟨rounds' - 1, by omega⟩
      cases values with
      | nil =>
          rw [whileShort, get_bind_run, if_neg (by rw [hlength, List.length_nil]; omega)]
          exact pure_after s
      | cons value rest =>
          set run := (rest.takeWhile fun other => other = value).length with hrun
          have hle : run ≤ rest.length := (List.takeWhile_prefix _).length_le
          have hsplit : value :: rest = List.replicate (run + 1) value ++ rest.drop run := by
            rw [List.replicate_succ, List.cons_append, hrun, ← takeWhile_eq_replicate,
              List.prefix_iff_eq_take.mp (List.takeWhile_prefix (l := rest) _),
              List.length_take_of_le hle, List.take_append_drop]
          have hwords : runWords (rounds + 1) (value :: rest) =
              [zigzagI64 value, run + 1] ++ runWords rounds (rest.drop run) := rfl
          have hspell : spell (runWords (rounds + 1) (value :: rest)) =
              spell [zigzagI64 value, run + 1] ++ spell (runWords rounds (rest.drop run)) := by
            rw [hwords, spell, List.flatMap_append]
            rfl
          rw [hspell] at hhere ⊢
          obtain ⟨hhead, htail⟩ := (Tape.here_append _ _ _).mp hhere
          rw [List.length_cons] at hlength hrounds hvalues
          have hround := runRound_of length (Nat.succ_pos run) (by omega) (by omega) hhead
          have hdrop : (rest.drop run).length = rest.length - run := List.length_drop
          rw [whileShort, get_bind_run, if_pos (by omega), bind_of_ok hround]
          rw [ih (by omega) ?_ (by omega) htail, after_after, List.length_append, ← hsplit]
          rw [Decoding.after, List.length_append, List.length_replicate]
          omega

/-! ## Frames -/

/-- Differences are always to be had. -/
lemma deltas_ok (values : List Int64) : ∃ ws, deltas values = .ok ws := by
  induction values with
  | nil => exact ⟨[], rfl⟩
  | cons first rest ih =>
      cases rest with
      | nil => exact ⟨[], rfl⟩
      | cons second rest =>
          obtain ⟨ws, hws⟩ := ih
          refine ⟨zigzagI128 (second.toInt - first.toInt) :: ws, ?_⟩
          rw [deltas, subI128, if_pos (fitsI128_sub second first), Outcome.ok_bind, hws,
            Outcome.ok_bind]
          rfl

/-- No strategy overflows. -/
lemma words_ok (strategy : CollectionStrategy) (values : List Int64) :
    ∃ ws, words strategy values = .ok ws := by
  cases strategy with
  | raw => exact ⟨_, rfl⟩
  | delta =>
      cases values with
      | nil => exact ⟨_, rfl⟩
      | cons first rest =>
          obtain ⟨ws, hws⟩ := deltas_ok (first :: rest)
          exact ⟨zigzagI64 first :: ws, by rw [words, hws, Outcome.ok_bind]; rfl⟩
  | runLength => exact ⟨_, rfl⟩

/-- The loop of a strategy gets the values back from its words. -/
lemma decodeValues_of (backend : Backend) {strategy : CollectionStrategy} {values : List Int64}
    {ws : List ℕ} {s : Decoding} (hws : words strategy values = .ok ws) (hempty : s.values = [])
    (hmax : values.length ≤ u64Max) (hhere : Tape.Here s.cursor (spell ws)) :
    decodeValues backend strategy values.length s = (.ok (), s.after (spell ws).length values) := by
  have hzero : s.values.length = 0 := by rw [hempty, List.length_nil]
  cases strategy with
  | raw =>
      cases hws
      rw [decodeValues_raw, hzero, Nat.sub_zero, oneByOne_of hhere]
  | delta =>
      rw [decodeValues]
      cases values with
      | nil =>
          cases hws
          exact pure_after s
      | cons first rest =>
          rw [words] at hws
          obtain ⟨ds, hds, hws⟩ := Outcome.bind_eq_ok.mp hws
          cases hws
          rw [spell_cons] at hhere ⊢
          obtain ⟨hhead, htail⟩ := (Tape.here_append _ _ _).mp hhere
          obtain ⟨hword, hvalue⟩ := decodeI64_zigzagI64 first
          have hne : (first :: rest).length ≠ 0 := Nat.succ_ne_zero _
          rw [if_pos hne, bind_of_ok (rawValue_of hword hvalue hhead)]
          rw [whileShort_delta hds (by simp [Decoding.after]) ?_ ?_ htail, after_after,
            List.length_append]
          · rfl
          · simp [Decoding.after, hempty, Nat.add_comm]
          · rw [List.length_cons]
            omega
  | runLength =>
      cases hws
      exact whileShort_runs (Nat.le_refl _) (by omega) hmax (Nat.lt_succ_self _) hhere

/-- The frame of the words `ws` of a strategy. -/
def frame (strategy : CollectionStrategy) (count : ℕ) (ws : List ℕ) : List UInt8 :=
  strategy.tag :: (encodeVarintLe count ++ spell ws)

lemma strategyOf_eq_some {tag : UInt8} {strategy : CollectionStrategy} :
    strategyOf tag = some strategy ↔ tag = strategy.tag := by
  rw [strategyOf]
  split
  · next h => cases strategy <;> simp [h, CollectionStrategy.tag]
  · split
    · next h => cases strategy <;> simp [h, CollectionStrategy.tag]
    · split
      · next h => cases strategy <;> simp [h, CollectionStrategy.tag]
      · next h₀ h₁ h₂ => cases strategy <;> simp [h₀, h₁, h₂, CollectionStrategy.tag]

lemma enforceCollectionLimit_eq_ok {c : AdaptiveConfig} {length : ℕ} {u : Unit} :
    c.enforceCollectionLimit length = .ok u ↔
      ∀ limit, c.base.collectionLimit = some limit → length ≤ limit := by
  rw [AdaptiveConfig.enforceCollectionLimit]
  cases c.base.collectionLimit with
  | none => simp
  | some limit =>
      by_cases h : limit < length
      · simp [h]
      · simp [h, not_lt.mp h]

lemma spells_header (c : AdaptiveConfig) :
    Spells Always (decodeHeader c) fun header bs =>
      (∀ limit, c.base.collectionLimit = some limit → header.2 ≤ limit) ∧ header.2 ≤ u64Max ∧
        bs = header.1.tag :: encodeVarintLe header.2 := by
  have htag : ∀ tag, Spells Always
      (okOr (strategyOf tag) (.adaptive "unknown collection strategy") : Act Cursor Error _)
      fun strategy (bs : List UInt8) => tag = strategy.tag ∧ bs = [] := by
    intro tag
    cases h : strategyOf tag with
    | none =>
        refine (spells_throw _).congr fun strategy bs => ?_
        rw [← strategyOf_eq_some, h]
        simp
    | some strategy =>
        refine (Spells.pure strategy).congr fun strategy' bs => ?_
        rw [← strategyOf_eq_some, h, Option.some.injEq, eq_comm]
  refine (spells_byte.bind steady_always fun tag => (htag tag).bind steady_always fun strategy =>
    spells_usizeVarint.bind steady_always fun length =>
    (Spells.call (c.enforceCollectionLimit length)).bind steady_always fun _ =>
    Spells.pure (strategy, length)).congr fun header bs => ?_
  simp only [enforceCollectionLimit_eq_ok]
  constructor
  · rintro ⟨_, _, _, rfl, ⟨strategy, _, _, ⟨rfl, rfl⟩, ⟨length, _, _, ⟨hmax, rfl⟩,
      ⟨_, _, _, ⟨hlimit, rfl⟩, ⟨rfl, rfl⟩, rfl⟩, rfl⟩, rfl⟩, rfl⟩
    exact ⟨hlimit, hmax, by simp⟩
  · rintro ⟨hlimit, hmax, rfl⟩
    exact ⟨header.1.tag, _, _, rfl, ⟨header.1, _, _, ⟨rfl, rfl⟩, ⟨header.2, _, _, ⟨hmax, rfl⟩,
      ⟨(), _, _, ⟨hlimit, rfl⟩, ⟨rfl, rfl⟩, rfl⟩, rfl⟩, rfl⟩, by simp⟩

/-- The decoder gets the values back from the frame of a strategy, and reads all of it. -/
lemma decodeFrame_of (backend : Backend) (c : AdaptiveConfig) (input : Slice 1 UInt8)
    {strategy : CollectionStrategy} {values : List Int64} {ws : List ℕ}
    (hws : words strategy values = .ok ws)
    (hinput : input.elems = frame strategy values.length ws)
    (hlimit : ∀ limit, c.base.collectionLimit = some limit → values.length ≤ limit)
    (hmax : values.length ≤ u64Max) :
    decodeFrame backend c values.length ⟨Cursor.new input, []⟩ =
      (.ok (), Decoding.after ⟨Cursor.new input, []⟩ input.elems.length values) := by
  set s : Decoding := ⟨Cursor.new input, []⟩ with hs
  have hhere : Tape.Here s.cursor
      ((strategy.tag :: encodeVarintLe values.length) ++ spell ws) :=
    here_new.mpr ⟨[], by rw [hinput, frame, List.append_nil, List.cons_append]⟩
  obtain ⟨hheader, hbody⟩ := (Tape.here_append _ _ _).mp hhere
  have hread := reading_of (spells_header c) (a := (strategy, values.length)) ⟨hlimit, hmax, rfl⟩
    hheader
  have hvalues := decodeValues_of backend hws (s := s.after _ []) rfl hmax hbody
  have hlength : input.elems.length =
      (strategy.tag :: encodeVarintLe values.length).length + (spell ws).length := by
    rw [hinput, frame, ← List.cons_append, List.length_append]
  have hfinish : ∀ t : Decoding, t = s.after input.elems.length values →
      reading (finish c.base.trailing) t = (.ok (), t) := by
    rintro t rfl
    have hend : finish c.base.trailing (s.after input.elems.length values).cursor =
        (.ok (), (s.after input.elems.length values).cursor) :=
      finish_eq_ok.mpr ⟨fun _ => Nat.zero_add input.elems.length, rfl⟩
    rw [reading, hend]
  rw [decodeFrame, bind_of_ok hread]
  dsimp only
  rw [if_neg (Nat.lt_irrefl _), bind_of_ok hvalues, after_after, List.nil_append, ← hlength,
    hfinish _ rfl]

/-! ## Encoding -/

lemma length_encodeVarintLe (value : ℕ) : (encodeVarintLe value).length = varintSize value := by
  rw [encodeVarintLe, varintSize]
  split
  · rfl
  · split
    · rfl
    · split
      · rfl
      · split <;> rfl

lemma addSizes_eq_some {size total : ℕ} {ws : List ℕ} (hsize : size ≤ u64Max) :
    addSizes size ws = some total ↔ total = size + (spell ws).length ∧ total ≤ u64Max := by
  induction ws generalizing size with
  | nil =>
      simp only [addSizes, Option.some.injEq, spell_nil, List.length_nil]
      omega
  | cons w ws ih =>
      rw [addSizes, spell_cons, List.length_append, length_encodeVarintLe]
      constructor
      · intro h
        obtain ⟨next, hnext, h⟩ := Option.bind_eq_some_iff.mp h
        rw [checkedAdd, Option.ite_none_right_eq_some, Option.some.injEq] at hnext
        obtain ⟨rfl, hle⟩ := (ih (by omega)).mp h
        omega
      · rintro ⟨rfl, hle⟩
        rw [checkedAdd, if_pos (by omega), Option.bind_eq_bind, Option.bind_some]
        exact (ih (by omega)).mpr ⟨by omega, hle⟩

lemma payloadSize_eq_ok {strategy : CollectionStrategy} {values : List Int64} {ws : List ℕ}
    {size : ℕ} (hws : words strategy values = .ok ws) :
    payloadSize strategy values = .ok size ↔ size = (spell ws).length ∧ size ≤ u64Max := by
  rw [payloadSize, hws, Outcome.ok_bind, Outcome.okOr_eq_ok, addSizes_eq_some (Nat.zero_le _),
    Nat.zero_add]

/-- The size that is chosen is that of the payload. -/
lemma choose_size {values : List Int64} {mode : AdaptiveMode} {strategy : CollectionStrategy}
    {size : ℕ} {ws : List ℕ} (h : choose values mode = .ok (strategy, size))
    (hws : words strategy values = .ok ws) : size = (spell ws).length := by
  have hsize : payloadSize strategy values = .ok size := by
    have hcompare : compareSizes values = .ok (strategy, size) →
        payloadSize strategy values = .ok size := by
      intro h
      obtain ⟨raw, hraw, h⟩ := Outcome.bind_eq_ok.mp h
      obtain ⟨delta, hdelta, h⟩ := Outcome.bind_eq_ok.mp h
      obtain ⟨rle, hrle, h⟩ := Outcome.bind_eq_ok.mp h
      rw [Outcome.pure_eq_ok, Outcome.ok.injEq, bestStrategy] at h
      split at h
      · cases h
        exact hdelta
      · split at h
        · cases h
          exact hrle
        · cases h
          exact hraw
    cases mode with
    | off =>
        obtain ⟨raw, hraw, h⟩ := Outcome.bind_eq_ok.mp h
        cases h
        exact hraw
    | exact => exact hcompare h
    | heuristic =>
        rw [choose] at h
        split at h
        · exact hcompare h
        · obtain ⟨⟨chosen, sample⟩, -, h⟩ := Outcome.bind_eq_ok.mp h
          obtain ⟨payload, hpayload, h⟩ := Outcome.bind_eq_ok.mp h
          cases h
          exact hpayload
  exact ((payloadSize_eq_ok hws).mp hsize).1

lemma length_frame (strategy : CollectionStrategy) (count : ℕ) (ws : List ℕ) :
    (frame strategy count ws).length = 1 + varintSize count + (spell ws).length := by
  rw [frame, List.length_cons, List.length_append, length_encodeVarintLe]
  omega

/-- A layout is a chosen strategy with the size of its frame. -/
lemma collectionLayout_eq_ok {values : List Int64} {mode : AdaptiveMode}
    {strategy : CollectionStrategy} {required : ℕ} {ws : List ℕ}
    (hws : words strategy values = .ok ws) :
    collectionLayout values mode = .ok (strategy, required) ↔
      (∃ size, choose values mode = .ok (strategy, size)) ∧
        required = (frame strategy values.length ws).length ∧ required ≤ u64Max := by
  have hadd : ∀ size, (checkedAdd 1 (varintSize values.length)).bind
      (fun first => checkedAdd first size) = some required ↔
        required = 1 + varintSize values.length + size ∧ required ≤ u64Max := by
    intro size
    rw [Option.bind_eq_some_iff]
    simp only [checkedAdd, Option.ite_none_right_eq_some, Option.some.injEq]
    constructor
    · rintro ⟨_, ⟨-, rfl⟩, hle, rfl⟩
      exact ⟨rfl, hle⟩
    · rintro ⟨rfl, hle⟩
      exact ⟨_, ⟨by omega, rfl⟩, hle, rfl⟩
  rw [collectionLayout, length_frame]
  constructor
  · intro h
    obtain ⟨⟨strategy', size⟩, hchoose, h⟩ := Outcome.bind_eq_ok.mp h
    obtain ⟨required', hrequired, h⟩ := Outcome.bind_eq_ok.mp h
    cases h
    obtain ⟨rfl, hle⟩ := (hadd size).mp (Outcome.okOr_eq_ok.mp hrequired)
    obtain rfl := choose_size hchoose hws
    exact ⟨⟨_, hchoose⟩, rfl, hle⟩
  · rintro ⟨⟨size, hchoose⟩, hrequired, hle⟩
    obtain rfl := choose_size hchoose hws
    rw [hchoose, Outcome.ok_bind]
    dsimp only
    rw [(hadd _).mpr ⟨hrequired, hle⟩]
    rfl

namespace OutputCursor

/-- `m` writes `text` where there is room for it. -/
def Writes (m : Act OutputCursor Error Unit) (text : List UInt8) : Prop :=
  ∀ written rest : List UInt8, text.length ≤ rest.length →
    m ⟨written, rest⟩ = (.ok (), ⟨written ++ text, rest.drop text.length⟩)

lemma writes_bytes (value : List UInt8) : Writes (bytes value) value := by
  intro written rest hroom
  rw [bytes, get_bind_run, if_pos hroom, modify_run]

lemma Writes.bind {m n : Act OutputCursor Error Unit} {xs ys : List UInt8} (hm : Writes m xs)
    (hn : Writes n ys) : Writes (m >>= fun _ => n) (xs ++ ys) := by
  intro written rest hroom
  rw [List.length_append] at hroom
  rw [bind_of_ok (hm written rest (by omega)), hn _ _ (by rw [List.length_drop]; omega),
    List.append_assoc, List.drop_drop, List.length_append]

lemma writes_varints (ws : List ℕ) : Writes (varints ws) (spell ws) := by
  induction ws with
  | nil =>
      intro written rest _
      rw [varints, spell_nil, List.append_nil]
      rfl
  | cons w ws ih =>
      rw [spell_cons]
      exact (writes_bytes _).bind ih

/-- A slice whose first bytes are filled to the last one. -/
lemma fill_of {m : Act OutputCursor Error Unit} {text output : List UInt8} (hm : Writes m text)
    (hroom : text.length ≤ output.length) :
    fill text.length m output = (.ok (), text ++ output.drop text.length) := by
  have htake : (output.take text.length).length = text.length := List.length_take_of_le hroom
  rw [fill, hm [] (output.take text.length) (Nat.le_of_eq htake.symm)]
  simp

end OutputCursor

/-- A slice with room for the frame receives it. -/
lemma encodeI64SliceIntoSlice_of {c : AdaptiveConfig} {values : List Int64}
    {strategy : CollectionStrategy} {ws : List ℕ} {output : List UInt8}
    (hws : words strategy values = .ok ws)
    (hlayout : limitedLayout c values = .ok (strategy, (frame strategy values.length ws).length))
    (hroom : (frame strategy values.length ws).length ≤ output.length) :
    encodeI64SliceIntoSlice c values output =
      (.ok (frame strategy values.length ws).length, frame strategy values.length ws ++
        output.drop (frame strategy values.length ws).length) := by
  have hwrites : OutputCursor.Writes (do
      OutputCursor.byte strategy.tag
      OutputCursor.varint values.length
      let words ← call (words strategy values)
      OutputCursor.varints words) (frame strategy values.length ws) := by
    rw [hws]
    exact (OutputCursor.writes_bytes [strategy.tag]).bind
      ((OutputCursor.writes_bytes (encodeVarintLe values.length)).bind
        (OutputCursor.writes_varints ws))
  rw [encodeI64SliceIntoSlice, hlayout]
  refine (bind_of_ok (call_run _ _)).trans ?_
  dsimp only
  rw [get_bind_run, if_neg (by omega), bind_of_ok (OutputCursor.fill_of hwrites hroom)]
  rfl

lemma limitedLayout_eq_ok {c : AdaptiveConfig} {values : List Int64}
    {strategy : CollectionStrategy} {required : ℕ} {ws : List ℕ}
    (hws : words strategy values = .ok ws) :
    limitedLayout c values = .ok (strategy, required) ↔
      (∀ limit, c.base.collectionLimit = some limit → values.length ≤ limit) ∧
        (∃ size, choose values c.mode = .ok (strategy, size)) ∧
        required = (frame strategy values.length ws).length ∧ required ≤ u64Max ∧
        ∀ limit, c.base.limit = some limit → required ≤ limit := by
  rw [limitedLayout]
  simp only [Outcome.bind_eq_ok, enforceCollectionLimit_eq_ok, exists_const]
  refine and_congr_right fun _ => ?_
  constructor
  · rintro ⟨⟨strategy', required'⟩, hlayout, _, hlimit, hpure⟩
    cases hpure
    obtain ⟨hchoose, hrequired, hmax⟩ := (collectionLayout_eq_ok hws).mp hlayout
    exact ⟨hchoose, hrequired, hmax, Config.enforceByteLimit_eq_ok.mp hlimit⟩
  · rintro ⟨hchoose, hrequired, hmax, hlimit⟩
    exact ⟨_, (collectionLayout_eq_ok hws).mpr ⟨hchoose, hrequired, hmax⟩, (),
      Config.enforceByteLimit_eq_ok.mpr hlimit, rfl⟩

/-- A collection within the limits, and the words of the strategy that is chosen for it. -/
structure Fits (c : AdaptiveConfig) (values : List Int64) (strategy : CollectionStrategy)
    (ws : List ℕ) : Prop where
  collection_le : ∀ limit, c.base.collectionLimit = some limit → values.length ≤ limit
  chosen : ∃ size, choose values c.mode = .ok (strategy, size)
  words_eq : words strategy values = .ok ws
  limit_le : ∀ limit, c.base.limit = some limit → (frame strategy values.length ws).length ≤ limit
  size_le : (frame strategy values.length ws).length ≤ isizeMax

/-- The direct path writes the frame of the raw strategy. -/
lemma encode_off {c : AdaptiveConfig} {values : List Int64} {bytes : List UInt8}
    (hvalues : 8 * values.length ≤ isizeMax) (hoff : c.mode = .off) :
    encodeI64Slice c values = .ok bytes ↔
      ∃ strategy ws, Fits c values strategy ws ∧ bytes = frame strategy values.length ws := by
  have hwords : words .raw values = .ok (values.map zigzagI64) := rfl
  have hframe : CollectionStrategy.raw.tag :: (encodeVarintLe values.length ++
      values.flatMap fun value => encodeVarintLe (zigzagI64 value)) =
        frame .raw values.length (values.map zigzagI64) := by
    rw [frame, spell, List.flatMap_map]
  have hcapacity : 1 * (values.length + 1) ≤ isizeMax := by
    rw [isizeMax] at hvalues ⊢
    omega
  rw [encodeI64Slice, if_pos hoff, hframe]
  simp only [Outcome.bind_eq_ok, enforceCollectionLimit_eq_ok, exists_const, withCapacity_eq_ok,
    Config.enforceByteLimit_eq_ok, Outcome.pure_eq_ok, Outcome.ok.injEq, one_mul]
  constructor
  · rintro ⟨hcollection, -, hsize, hlimit, rfl⟩
    have hchoose : choose values c.mode = .ok (.raw, (spell (values.map zigzagI64)).length) := by
      rw [hoff, choose, (payloadSize_eq_ok hwords).mpr ⟨rfl, ?_⟩]
      · rfl
      · rw [length_frame, isizeMax] at hsize
        rw [u64Max]
        omega
    exact ⟨.raw, _, ⟨hcollection, ⟨_, hchoose⟩, rfl, hlimit, hsize⟩, rfl⟩
  · rintro ⟨strategy, ws, h, rfl⟩
    obtain ⟨size, hchoose⟩ := h.chosen
    obtain rfl : strategy = .raw := by
      rw [hoff, choose] at hchoose
      obtain ⟨raw, -, hpure⟩ := Outcome.bind_eq_ok.mp hchoose
      cases hpure
      rfl
    have hws := h.words_eq
    cases hws
    exact ⟨h.collection_le, by rwa [one_mul] at hcapacity, h.size_le, h.limit_le, rfl⟩

/-- What the encoder writes: the frame of the strategy that it chooses, within the limits. -/
lemma encodeI64Slice_eq_ok {c : AdaptiveConfig} {values : List Int64} {bytes : List UInt8}
    (hvalues : 8 * values.length ≤ isizeMax) :
    encodeI64Slice c values = .ok bytes ↔
      ∃ strategy ws, Fits c values strategy ws ∧ bytes = frame strategy values.length ws := by
  by_cases hoff : c.mode = .off
  · exact encode_off hvalues hoff
  · -- the frame is written into a slice of exactly its size
    have hfull : ∀ {strategy : CollectionStrategy} {ws : List ℕ},
        words strategy values = .ok ws →
        limitedLayout c values = .ok (strategy, (frame strategy values.length ws).length) →
        encodeI64SliceIntoSlice c values
            (List.replicate (frame strategy values.length ws).length 0) =
          (.ok (frame strategy values.length ws).length, frame strategy values.length ws) := by
      intro strategy ws hws hlayout
      rw [encodeI64SliceIntoSlice_of hws hlayout (by rw [List.length_replicate])]
      simp
    rw [encodeI64Slice, if_neg hoff]
    constructor
    · intro h
      obtain ⟨required, hrequired, h⟩ := Outcome.bind_eq_ok.mp h
      obtain ⟨_, hreserve, h⟩ := Outcome.bind_eq_ok.mp h
      obtain ⟨⟨strategy, required'⟩, hlayout, hpure⟩ := Outcome.bind_eq_ok.mp hrequired
      cases hpure
      obtain ⟨ws, hws⟩ := words_ok strategy values
      obtain ⟨hcollection, hchoose, rfl, -, hlimit⟩ := (limitedLayout_eq_ok hws).mp hlayout
      rw [hfull hws hlayout] at h
      cases h
      exact ⟨strategy, ws, ⟨hcollection, hchoose, hws, hlimit, Outcome.require_eq_ok.mp hreserve⟩,
        rfl⟩
    · rintro ⟨strategy, ws, h, rfl⟩
      have hmax : (frame strategy values.length ws).length ≤ u64Max := by
        have := h.size_le
        rw [isizeMax] at this
        rw [u64Max]
        omega
      have hlayout := (limitedLayout_eq_ok h.words_eq).mpr
        ⟨h.collection_le, h.chosen, rfl, hmax, h.limit_le⟩
      rw [encodedI64SliceSize, hlayout]
      simp only [Outcome.ok_bind, Outcome.pure_eq_ok, Outcome.require_of h.size_le,
        hfull h.words_eq hlayout]

/-! ## The choice -/

lemma varintSize_le (value : ℕ) : varintSize value ≤ 17 := by
  rw [varintSize]
  split
  · omega
  · split
    · omega
    · split
      · omega
      · split <;> omega

lemma length_spell_le (ws : List ℕ) : (spell ws).length ≤ 17 * ws.length := by
  induction ws with
  | nil => simp
  | cons w ws ih =>
      have hsize := varintSize_le w
      rw [spell_cons, List.length_append, length_encodeVarintLe, List.length_cons]
      omega

lemma length_runs_le (rounds : ℕ) (values : List Int64) :
    (runs rounds values).length ≤ values.length := by
  induction rounds generalizing values with
  | zero => exact Nat.zero_le _
  | succ rounds ih =>
      cases values with
      | nil => exact Nat.zero_le _
      | cons value rest =>
          have := ih (rest.drop (rest.takeWhile fun other => other = value).length)
          rw [List.length_drop] at this
          rw [runs, List.length_cons, List.length_cons]
          omega

lemma length_deltas_le {values : List Int64} {ws : List ℕ} (h : deltas values = .ok ws) :
    ws.length ≤ values.length := by
  induction values generalizing ws with
  | nil =>
      cases h
      exact Nat.le_refl _
  | cons first rest ih =>
      cases rest with
      | nil =>
          cases h
          exact Nat.zero_le _
      | cons second rest =>
          rw [deltas] at h
          obtain ⟨_, -, h⟩ := Outcome.bind_eq_ok.mp h
          obtain ⟨ws', hws', h⟩ := Outcome.bind_eq_ok.mp h
          cases h
          have := ih hws'
          rw [List.length_cons] at this ⊢
          rw [List.length_cons, List.length_cons]
          omega

/-- No strategy writes more than two words for a value. -/
lemma length_words_le {strategy : CollectionStrategy} {values : List Int64} {ws : List ℕ}
    (h : words strategy values = .ok ws) : ws.length ≤ 2 * values.length := by
  cases strategy with
  | raw =>
      cases h
      rw [List.length_map]
      omega
  | delta =>
      cases values with
      | nil =>
          cases h
          exact Nat.zero_le _
      | cons first rest =>
          rw [words] at h
          obtain ⟨ds, hds, h⟩ := Outcome.bind_eq_ok.mp h
          cases h
          have := length_deltas_le hds
          rw [List.length_cons] at this ⊢
          rw [List.length_cons]
          omega
  | runLength =>
      cases h
      have := length_runs_le values.length values
      rw [List.length_flatMap]
      simp only [List.length_cons, List.length_nil, List.map_const', List.sum_replicate_nat]
      omega

lemma payloadSize_ok {values : List Int64} (h : ∀ strategy ws, words strategy values = .ok ws →
    (spell ws).length ≤ u64Max) (strategy : CollectionStrategy) :
    ∃ size, payloadSize strategy values = .ok size := by
  obtain ⟨ws, hws⟩ := words_ok strategy values
  exact ⟨_, (payloadSize_eq_ok hws).mpr ⟨rfl, h strategy ws hws⟩⟩

/-- The sizes of the strategies can be told and compared. -/
lemma compareSizes_ok {values : List Int64} (h : ∀ strategy ws, words strategy values = .ok ws →
    (spell ws).length ≤ u64Max) : ∃ r, compareSizes values = .ok r := by
  have hsize := payloadSize_ok h
  obtain ⟨raw, hraw⟩ := hsize .raw
  obtain ⟨delta, hdelta⟩ := hsize .delta
  obtain ⟨rle, hrle⟩ := hsize .runLength
  exact ⟨bestStrategy raw delta rle, by rw [compareSizes, hraw, hdelta, hrle]; rfl⟩

/-- Some strategy is chosen. -/
lemma choose_ok {values : List Int64} (mode : AdaptiveMode) (h : ∀ strategy ws,
    words strategy values = .ok ws → (spell ws).length ≤ u64Max) :
    ∃ strategy size, choose values mode = .ok (strategy, size) := by
  have hsize := payloadSize_ok h
  cases mode with
  | off =>
      obtain ⟨size, hraw⟩ := hsize .raw
      exact ⟨.raw, size, by rw [choose, hraw]; rfl⟩
  | exact =>
      obtain ⟨⟨strategy, size⟩, hcompare⟩ := compareSizes_ok h
      exact ⟨strategy, size, hcompare⟩
  | heuristic =>
      rw [choose]
      split
      · obtain ⟨⟨strategy, size⟩, hcompare⟩ := compareSizes_ok h
        exact ⟨strategy, size, hcompare⟩
      · -- the sample is short, whatever its values
        have hsample : ∀ strategy ws, words strategy (values.take heuristicSample) = .ok ws →
            (spell ws).length ≤ u64Max := by
          intro strategy ws hws
          have hspell := length_spell_le ws
          have hwords := length_words_le hws
          have htake := List.length_take_le heuristicSample values
          rw [heuristicSample] at htake hwords
          rw [u64Max]
          omega
        obtain ⟨⟨strategy, size⟩, hcompare⟩ := compareSizes_ok hsample
        obtain ⟨size', hsize'⟩ := hsize strategy
        exact ⟨strategy, size', by rw [hcompare, Outcome.ok_bind]; dsimp only; rw [hsize']; rfl⟩

/-- The limits of a collection: the frame that is chosen for it is within the byte limit, and no
frame is larger than the address space. -/
structure Within (c : AdaptiveConfig) (values : List Int64) : Prop where
  collection_le : ∀ limit, c.base.collectionLimit = some limit → values.length ≤ limit
  size_le : ∀ strategy ws, words strategy values = .ok ws →
    (frame strategy values.length ws).length ≤ isizeMax
  limit_le : ∀ strategy size ws, choose values c.mode = .ok (strategy, size) →
    words strategy values = .ok ws → ∀ limit, c.base.limit = some limit →
      (frame strategy values.length ws).length ≤ limit

/-- Integer collections there and back: within the limits a collection is encoded; what is encoded
comes back, with every byte read; and on every input the plain prefix of the raw strategy gives
the values, the cursor and the error of reading one varint at a time. -/
theorem integers_roundTrip (backend : Backend) (c : AdaptiveConfig) :
    (∀ values : Slice 8 Int64,
      (Within c values.elems → ∃ bytes, encodeI64Slice c values.elems = .ok bytes) ∧
      ∀ bytes, encodeI64Slice c values.elems = .ok bytes →
        ∃ (input : Slice 1 UInt8) (s : Decoding), input.elems = bytes ∧
          decodeI64Vec backend c input = .ok values.elems ∧
          decodeFrame backend c values.elems.length ⟨Cursor.new input, []⟩ = (.ok (), s) ∧
          s.cursor.position = bytes.length) ∧
    ∀ (length : ℕ) (s : Decoding),
      decodeValues backend .raw length s = oneByOne (length - s.values.length) s := by
  refine ⟨fun values => ⟨?_, ?_⟩, fun length s => decodeValues_raw backend length s⟩
  · intro h
    have hsize : ∀ strategy ws, words strategy values.elems = .ok ws →
        (spell ws).length ≤ u64Max := by
      intro strategy ws hws
      have := h.size_le strategy ws hws
      rw [length_frame, isizeMax] at this
      rw [u64Max]
      omega
    obtain ⟨strategy, size, hchoose⟩ := choose_ok c.mode hsize
    obtain ⟨ws, hws⟩ := words_ok strategy values.elems
    exact ⟨_, (encodeI64Slice_eq_ok values.length_le).mpr ⟨strategy, ws, ⟨h.collection_le,
      ⟨size, hchoose⟩, hws, h.limit_le strategy size ws hchoose hws, h.size_le strategy ws hws⟩,
      rfl⟩⟩
  · intro bytes hencode
    obtain ⟨strategy, ws, h, rfl⟩ := (encodeI64Slice_eq_ok values.length_le).mp hencode
    have hmax : values.elems.length ≤ u64Max := by
      have := values.length_le
      rw [isizeMax] at this
      rw [u64Max]
      omega
    set input : Slice 1 UInt8 := ⟨frame strategy values.elems.length ws, by
      rw [one_mul]
      exact h.size_le⟩ with hinput
    have hlimit : c.base.enforceByteLimit input.elems.length = .ok () :=
      Config.enforceByteLimit_eq_ok.mpr h.limit_le
    have hframe := decodeFrame_of backend c input h.words_eq rfl h.collection_le hmax
    have hheader : (decodeHeader c (Cursor.new input)).1 =
        .ok (strategy, values.elems.length) := by
      have hhere : Tape.Here (Cursor.new input)
          (strategy.tag :: encodeVarintLe values.elems.length) :=
        here_new.mpr ⟨spell ws, rfl⟩
      have hread := (spells_header c (Cursor.new input) trivial hhere.nil
        (strategy, values.elems.length) _).mpr ⟨_, ⟨h.collection_le, hmax, rfl⟩, hhere, rfl⟩
      rw [hread]
    refine ⟨input, _, rfl, ?_, hframe, Nat.zero_add _⟩
    have hlen : decodedI64SliceLen c input = .ok values.elems.length := by
      rw [decodedI64SliceLen, hlimit, Outcome.ok_bind, hheader]
      rfl
    have hinto : decodeI64SliceInto backend c input (List.replicate values.elems.length 0) =
        (.ok values.elems.length, values.elems) := by
      rw [decodeI64SliceInto, hlimit]
      refine (bind_of_ok (call_run _ _)).trans ?_
      rw [List.length_replicate, hframe]
      simp [Decoding.after]
    rw [decodeI64Vec, hlen, Outcome.ok_bind, Outcome.require_of values.length_le, Outcome.ok_bind,
      hinto]
    rfl

end RustBinary.Adaptive
