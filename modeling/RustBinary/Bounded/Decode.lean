import RustBinary.Bounded.Cost
import RustBinary.Native.Value

/-!
# Bounded decoding

`decode_bounded` checks the constants of a type against a budget, derives the limits of a
configuration from it and decodes under them.  Under the budget that comes from the constants
themselves, the encodings of the values of a statically bounded type are accepted.
-/

namespace RustBinary.Bounded

open Lib Lib.Act Native

/-! ## Budgets -/

/-- The constants of `DecodeBounded`. -/
structure DecodeBounded where
  maxInput : ℕ
  maxAlloc : ℕ
  maxDepth : ℕ
  maxWork : ℕ
  maxStructuralElement : ℕ

/-- `STATICALLY_BOUNDED`. -/
def DecodeBounded.staticallyBounded (T : DecodeBounded) : Bool := T.maxAlloc != u64Max

/-- The implementation for a type. -/
def BoundedType.decodeBounded (t : BoundedType) : DecodeBounded where
  maxInput := t.maxInput
  maxAlloc := t.maxAlloc
  maxDepth := t.maxDepth
  maxWork := t.maxWork
  maxStructuralElement := t.maxStructuralElement

structure Budget where
  maxInput : ℕ
  maxAlloc : ℕ
  maxDepth : ℕ
  maxWork : ℕ
  elementStructureBytes : ℕ
deriving DecidableEq, Repr

def elementStructureBytes : ℕ := 64

/-- `const_or_default`. -/
def constOrDefault (value default : ℕ) : ℕ := if value = u64Max then default else value

/-- `Budget::from_type`. -/
def Budget.fromType (T : DecodeBounded) : Budget where
  maxInput := constOrDefault T.maxInput defaultSizeLimit
  maxAlloc := constOrDefault T.maxAlloc defaultSizeLimit
  maxDepth := if T.maxDepth = u64Max then RustBinary.maxDepth else T.maxDepth
  maxWork := constOrDefault T.maxWork defaultSizeLimit
  elementStructureBytes := Bounded.elementStructureBytes

structure EnforcedLimits where
  byteLimit : ℕ
  collectionLimit : ℕ
  depthLimit : ℕ
deriving DecidableEq, Repr

/-- `derive_enforced_limits`. -/
def deriveEnforcedLimits (budget : Budget) (staticallyBounded : Bool) (perElementCeiling : ℕ) :
    EnforcedLimits :=
  let byteLimit := if budget.maxInput < budget.maxWork then budget.maxInput else budget.maxWork
  { byteLimit := byteLimit
    collectionLimit :=
      if staticallyBounded then byteLimit
      -- `checked_div` fails for a ceiling of zero
      else if perElementCeiling = 0 then byteLimit
      else if budget.maxAlloc / perElementCeiling < byteLimit then
        budget.maxAlloc / perElementCeiling
      else byteLimit
    depthLimit := if budget.maxDepth < maxDepth then budget.maxDepth else maxDepth }

/-- The configuration that enforces limits. -/
def EnforcedLimits.config (limits : EnforcedLimits) : Config :=
  ((Config.standard.withLimit limits.byteLimit).withCollectionLimit
    limits.collectionLimit).withDepthLimit limits.depthLimit

section Ceiling

variable (T : DecodeBounded) (budget : Budget)

/-- The memory behind one element of a collection, beside its bytes on the wire. -/
def structuralElement : ℕ :=
  if T.maxStructuralElement = u64Max then budget.elementStructureBytes else T.maxStructuralElement

/-- `depth_eff`. -/
def depthEff : ℕ :=
  let depth := if T.maxDepth = u64Max then budget.maxDepth else T.maxDepth
  if depth = 0 then 1 else depth

/-- `per_element_ceiling`. -/
def perElementCeiling : ℕ := saturatingMul (structuralElement T budget) (depthEff T budget)

/-- The limits that `decode_bounded` enforces. -/
def DecodeBounded.limits : EnforcedLimits :=
  deriveEnforcedLimits budget T.staticallyBounded (perElementCeiling T budget)

end Ceiling

/-! ## Decoding under a budget -/

structure ResourceUse where
  read : ℕ
  allocBound : ℕ
  depthBound : ℕ
  workBound : ℕ
deriving DecidableEq, Repr

structure Decoded (α : Type) where
  value : α
  use : ResourceUse

inductive BudgetExceeded where
  | input (limit : ℕ)
  | alloc (limit : ℕ)
  | depth (limit : ℕ)
  | work (limit : ℕ)
deriving DecidableEq, Repr

inductive DecodeError where
  | budget (exceeded : BudgetExceeded)
  | codec (error : Error)
deriving DecidableEq, Repr

section Decoding

-- `Error::from_nextjson`, and `NsonDeserialize::nextdecode` of the type
variable {α : Type} (fromNextjson : NextjsonError → Error) (nextdecode : Dec α)

/-- `from_slice_with_consumed`. -/
def fromSliceWithConsumed (input : Input) (config : Config) : Outcome Error (α × ℕ) :=
  match nextdecode (Decoder.new input config) with
  | (.ok value, s) =>
      if s.depth ≠ 0 then .err (.custom "decoder finished inside an unclosed container")
      else .ok (value, s.cursor)
  | (.err e, s) => .err (s.wireError.getD (fromNextjson e))
  | (.panic, _) => .panic
  | (.diverge, _) => .diverge

/-- `decode_bounded`. -/
def decodeBounded (T : DecodeBounded) (input : Input) (budget : Budget) :
    Outcome DecodeError (Decoded α) :=
  if budget.maxInput < input.bytes.length then .err (.budget (.input budget.maxInput))
  else if T.maxDepth ≠ u64Max ∧ budget.maxDepth < T.maxDepth then
    .err (.budget (.depth budget.maxDepth))
  else if T.maxWork ≠ u64Max ∧ budget.maxWork < T.maxWork then
    .err (.budget (.work budget.maxWork))
  else
    let limits := T.limits budget
    match fromSliceWithConsumed fromNextjson nextdecode input limits.config with
    | .err e => .err (.codec e)
    | .panic => .panic
    | .diverge => .diverge
    | .ok (value, consumed) =>
        if consumed ≠ input.bytes.length then
          .err (.codec (.trailingBytes (input.bytes.length - consumed)))
        else .ok
          { value := value
            use :=
              { read := consumed
                allocBound :=
                  if T.staticallyBounded then T.maxAlloc
                  else saturatingAdd limits.byteLimit
                    (saturatingMul limits.collectionLimit (perElementCeiling T budget))
                depthBound := min T.maxDepth limits.depthLimit
                workBound := if T.staticallyBounded then T.maxWork else consumed } }

end Decoding

/-! ## Configurations that spell alike -/

section Alike

variable [Target] {c c' : Config} (hendian : c'.endian = c.endian)
  (hintegers : c'.integers = c.integers)

include hendian hintegers

lemma spell_congr (value : WireScalar) : value.spell c' = value.spell c := by
  have hint : ∀ width word, spellInt c' width word = spellInt c width word := by
    intro width word
    simp only [spellInt, spellVarint, toBytes, hendian, hintegers]
  cases value with
  | null => rfl
  | bool value => cases value <;> rfl
  | int tag word => exact congrArg (tag.tag :: ·) (hint tag.width word)
  | f64 bits => exact congrArg (tagF64 :: ·) (by simp only [toBytes, hendian])
  | f32 bits => exact congrArg (tagF32 :: ·) (by simp only [toBytes, hendian])
  | str bytes => exact congrArg (fun length => tagString :: (length ++ bytes)) (hint 8 _)

mutual

lemma spellValue_congr : ∀ wire : WireValue, spellValue c' wire = spellValue c wire
  | .scalar value => spell_congr hendian hintegers value
  | .node kind entries => by rw [spellValue, spellValue, spellEntries_congr entries]

lemma spellEntries_congr {kind : Kind} :
    ∀ entries : WireEntries kind, spellEntries c' entries = spellEntries c entries
  | .nil => rfl
  | .cons key value rest => by
      have hkey : spellKey c' key = spellKey c key := by
        cases kind with
        | array => rfl
        | object => exact spell_congr hendian hintegers (.str key)
      rw [spellEntries, spellEntries, hkey, spellValue_congr value, spellEntries_congr rest]

end

omit [Target] hendian in
lemma fits_congr (wire : WireValue) : Fits c' wire ↔ Fits c wire := by
  have hscalar : WireScalar.Fits c' = WireScalar.Fits c := by
    funext value
    cases value with
    | int tag word => simp only [WireScalar.Fits, IsWord, hintegers]
    | null | bool | f64 | f32 | str => rfl
  rw [Fits, Fits, hscalar]

omit [Target] hendian in
lemma wireOf_congr (value : Tree Scalar String) : wireOf c' value = wireOf c value := by
  have hscalar : Scalar.wire c' = Scalar.wire c := by
    funext value
    cases value with
    | i64 | i128 => simp only [Scalar.wire, wordOf, hintegers]
    | null | bool | u64 | u128 | f64 | f32 | str | char => rfl
  rw [wireOf, wireOf, hscalar]

lemma decodeValue_congr (wire : WireValue) : decodeValue c' wire = decodeValue c wire := by
  have hbytes : ∀ width word, toBytes c' width word = toBytes c width word := by
    intro width word
    simp only [toBytes, hendian]
  have hsigned : ∀ width word, signedWord c' width word = signedWord c width word := by
    intro width word
    simp only [signedWord, Decoder.widen, Decoder.signFill, hbytes, hendian, hintegers]
  have htoken : WireScalar.token c' = WireScalar.token c := by
    funext value
    cases value with
    | int tag word => cases tag <;> simp only [WireScalar.token, IntTag.number, hsigned]
    | null | bool | f64 | f32 | str => rfl
  rw [decodeValue, decodeValue, htoken]

end Alike

/-- Limits change nothing on the wire. -/
lemma spellValue_limits [Target] (limits : EnforcedLimits) (wire : WireValue) :
    spellValue limits.config wire = spellValue .standard wire :=
  spellValue_congr (show limits.config.endian = Config.standard.endian from rfl) rfl wire

/-! ## What a budget from the constants accepts -/

section Within

variable [Target] {c : Config} {limit : ℕ}

lemma length_le_spellEntries {kind : Kind} :
    ∀ entries : WireEntries kind, entries.length ≤ (spellEntries c entries).length
  | .nil => le_rfl
  | .cons key value rest => by
      have hvalue := spellValue_pos (c := c) value
      have hrest := length_le_spellEntries rest
      rw [Forest.length, spellEntries, List.length_append, List.length_append]
      omega

mutual

/-- Limits on the entries that no container of a value reaches, and one on its nesting. -/
lemma within_of_length : ∀ (wire : WireValue) {room : ℕ}, (spellValue c wire).length ≤ limit →
    wire.height ≤ room → wire.Within (some limit) room
  | .scalar _, _, _, _ => trivial
  | .node kind entries, room, hlength, hheight => by
      have hcount := length_le_spellEntries (c := c) entries
      rw [spellValue, List.length_cons, List.length_append] at hlength
      rw [Lib.Tree.height] at hheight
      refine ⟨by omega, fun l hl => ?_, within_entries_of_length entries (by omega) (by omega)⟩
      obtain rfl := Option.some.inj hl
      omega

lemma within_entries_of_length {kind : Kind} : ∀ (entries : WireEntries kind) {room : ℕ},
    (spellEntries c entries).length ≤ limit → entries.height ≤ room →
    entries.Within (some limit) room
  | .nil, _, _, _ => trivial
  | .cons key value rest, room, hlength, hheight => by
      rw [spellEntries, List.length_append, List.length_append] at hlength
      rw [Forest.height] at hheight
      exact ⟨within_of_length value (by omega) ((le_max_left _ _).trans hheight),
        within_entries_of_length rest (by omega) ((le_max_right _ _).trans hheight)⟩

end

end Within

/-- The deserializer of a type accepts what the tokens of its values spell: wherever a caller that
reads token by token gets the tokens of a value, it goes as far and succeeds. -/
def Accepts [Target] (t : BoundedType) {α : Type} (nextdecode : Dec α) : Prop :=
  ∀ (value : t.Value) (input : Input) (config : Config) (n : ℕ) (s : Decoder),
    Decoder.readValue n (Decoder.new input config)
      = (.ok ((t.tree value).map Scalar.token id), s) →
    ∃ a u, nextdecode (Decoder.new input config) = (.ok a, u) ∧
      u.cursor = s.cursor ∧ u.depth = s.depth

section Limits

variable {T : DecodeBounded} {n : ℕ}

/-- The limits that a budget from the constants of a type enforces. -/
def DecodeBounded.ownLimits (T : DecodeBounded) : EnforcedLimits := T.limits (Budget.fromType T)

lemma le_constOrDefault {value : ℕ} (hvalue : n ≤ value) (hdefault : n ≤ defaultSizeLimit) :
    n ≤ constOrDefault value defaultSizeLimit := by
  rw [constOrDefault]
  split
  · exact hdefault
  · exact hvalue

lemma le_byteLimit (hinput : n ≤ T.maxInput) (hwork : n ≤ T.maxWork)
    (hdefault : n ≤ defaultSizeLimit) : n ≤ T.ownLimits.byteLimit := by
  change n ≤ if (Budget.fromType T).maxInput < (Budget.fromType T).maxWork then
    (Budget.fromType T).maxInput else (Budget.fromType T).maxWork
  split
  · exact le_constOrDefault hinput hdefault
  · exact le_constOrDefault hwork hdefault

lemma le_depthLimit (hdepth : n ≤ T.maxDepth) (hmax : n ≤ maxDepth) :
    n ≤ T.ownLimits.config.depthLimit := by
  have hbudget : n ≤ (Budget.fromType T).maxDepth := by
    change n ≤ if T.maxDepth = u64Max then maxDepth else T.maxDepth
    split
    · exact hmax
    · exact hdepth
  have hlimit : n ≤ T.ownLimits.depthLimit := by
    change n ≤ if (Budget.fromType T).maxDepth < maxDepth then (Budget.fromType T).maxDepth
      else maxDepth
    split
    · exact hbudget
    · exact hmax
  change n ≤ if maxDepth < T.ownLimits.depthLimit then maxDepth else T.ownLimits.depthLimit
  split
  · exact hmax
  · exact hlimit

end Limits

section Accepted

variable [Target] {T : DecodeBounded} {value : Tree Scalar String} {s : Encoder}

/-- What the encoder of the standard profile has written. -/
lemma writer_eq (h : Encoder.writeValue value (Encoder.new .standard) = (.ok (), s)) :
    s.writer = spellValue .standard (wireOf .standard value) ∧
      s.writer.length ≤ defaultSizeLimit ∧ Fits .standard (wireOf .standard value) ∧
      value.height ≤ maxDepth := by
  obtain ⟨rfl, hbounds, hfits, hwithin⟩ :=
    writeValue_ok value (inBounds_new .standard) (cleared_new .standard) h
  refine ⟨List.nil_append _, ?_, hfits, Lib.Tree.height_le value hwithin⟩
  have hlimit := hbounds.le_limit defaultSizeLimit rfl
  rw [hbounds.written_eq] at hlimit
  exact hlimit

/-- A value that was written, if the constants of a type hold for it, is read under the limits that
they stand for. -/
lemma readValue_limits (h : Encoder.writeValue value (Encoder.new .standard) = (.ok (), s))
    (hstatic : T.staticallyBounded = true) (hinput : s.writer.length ≤ T.maxInput)
    (hwork : s.writer.length ≤ T.maxWork) (hdepth : value.height ≤ T.maxDepth)
    {input : Input} (hbytes : input.bytes = s.writer) :
    ∃ n, Decoder.readValue n (Decoder.new input T.ownLimits.config)
      = (.ok (value.map Scalar.token id),
          { Decoder.new input T.ownLimits.config with cursor := s.writer.length }) := by
  obtain ⟨hwriter, hdefault, hfits, hheight⟩ := writer_eq h
  have hbyte := le_byteLimit hinput hwork hdefault
  have hcollection : T.ownLimits.config.collectionLimit = some T.ownLimits.byteLimit := by
    change some (if T.staticallyBounded = true then T.ownLimits.byteLimit else _) = _
    rw [if_pos hstatic]
  have hwire : wireOf T.ownLimits.config value = wireOf .standard value := wireOf_congr rfl value
  have hspell : spellValue T.ownLimits.config (wireOf T.ownLimits.config value) = s.writer := by
    rw [hwire, hwriter]
    exact spellValue_limits _ _
  have hfits : Fits T.ownLimits.config (wireOf T.ownLimits.config value) := by
    rw [hwire]
    exact (fits_congr rfl _).mpr hfits
  have hdecode : decodeValue T.ownLimits.config (wireOf T.ownLimits.config value)
      = some (value.map Scalar.token id) :=
    Lib.Tree.mapOption_map (Scalar.token_wire (c := T.ownLimits.config)) fromUtf8_toUtf8 value
  have hwithin : (wireOf T.ownLimits.config value).Within T.ownLimits.config.collectionLimit
      (T.ownLimits.config.depthLimit - 0) := by
    rw [hcollection]
    refine within_of_length (c := T.ownLimits.config) _ (hspell.symm ▸ hbyte) ?_
    rw [wireOf, Lib.Tree.height_map]
    exact le_depthLimit hdepth hheight
  have hhere : Tape.Here (Decoder.new input T.ownLimits.config)
      (spellValue T.ownLimits.config (wireOf T.ownLimits.config value)) := by
    rw [hspell, ← hbytes]
    refine ⟨slice_eq_some.mpr ⟨Nat.le_add_right _ _, (Nat.zero_add _).le, ?_⟩, fun l hl => ?_⟩
    · simp [Decoder.new]
    · obtain rfl := Option.some.inj hl
      rw [show (Decoder.new input T.ownLimits.config).cursor = 0 from rfl, Nat.zero_add, hbytes]
      exact hbyte
  have hread := (readValue_complete _).1 _ _ _ (ready_new input T.ownLimits.config) le_rfl hfits
    hdecode hwithin hhere
  rw [hspell] at hread
  refine ⟨_, hread.trans ?_⟩
  simp only [Native.after, Tape.advance, Decoder.new, Nat.zero_add]

omit [Target] in
/-- Under the budget from the constants of a type, what reads the value is accepted. -/
lemma decodeBounded_ok {α : Type} (fromNextjson : NextjsonError → Error) {nextdecode : Dec α}
    {input : Input} {a : α} {u : Decoder}
    (hdecode : nextdecode (Decoder.new input T.ownLimits.config) = (.ok a, u)) (hdepth : u.depth = 0)
    (hcursor : u.cursor = input.bytes.length)
    (hinput : input.bytes.length ≤ (Budget.fromType T).maxInput) :
    ∃ decoded, decodeBounded fromNextjson nextdecode T input (Budget.fromType T) = .ok decoded := by
  have hslice : fromSliceWithConsumed fromNextjson nextdecode input T.ownLimits.config
      = .ok (a, u.cursor) := by
    rw [fromSliceWithConsumed, hdecode]
    exact if_neg (not_not.mpr hdepth)
  have hdepths : ¬ (T.maxDepth ≠ u64Max ∧ (Budget.fromType T).maxDepth < T.maxDepth) := by
    rintro ⟨hne, hlt⟩
    rw [show (Budget.fromType T).maxDepth = T.maxDepth from if_neg hne] at hlt
    exact lt_irrefl _ hlt
  have hworks : ¬ (T.maxWork ≠ u64Max ∧ (Budget.fromType T).maxWork < T.maxWork) := by
    rintro ⟨hne, hlt⟩
    rw [show (Budget.fromType T).maxWork = T.maxWork from if_neg hne] at hlt
    exact lt_irrefl _ hlt
  rw [decodeBounded, if_neg (Nat.not_lt.mpr hinput), if_neg hdepths, if_neg hworks]
  rw [DecodeBounded.ownLimits] at hslice
  dsimp only
  rw [hslice]
  exact ⟨_, if_neg (not_not.mpr hcursor)⟩

end Accepted

/-- **The static cost algebra.**  In the standard profile the encoding of a value of a statically
bounded type has no more than `MAX_INPUT` bytes, is nested no deeper than `MAX_DEPTH`, and
`decode_bounded` accepts it under the budget from the type; in every profile it has no more than
`MAX_SIZE` bytes. -/
theorem costAlgebra_sound [Target] (fromNextjson : NextjsonError → Error) (t : BoundedType)
    {α : Type} {nextdecode : Dec α} (haccepts : Accepts t nextdecode) (value : t.Value) :
    (∀ s, Encoder.writeValue (t.tree value) (Encoder.new .standard) = (.ok (), s) →
      s.writer.length ≤ t.maxInput ∧ (t.tree value).height ≤ t.maxDepth ∧
      ∀ input : Input, input.bytes = s.writer → ∃ decoded,
        decodeBounded fromNextjson nextdecode t.decodeBounded input
          (Budget.fromType t.decodeBounded) = .ok decoded) ∧
    ∀ config s, Encoder.writeValue (t.tree value) (Encoder.new config) = (.ok (), s) →
      s.writer.length ≤ t.maxSize := by
  have hlength : ∀ {config : Config} {s : Encoder},
      Encoder.writeValue (t.tree value) (Encoder.new config) = (.ok (), s) →
      s.writer.length = wireLength config (t.tree value) ∧ s.writer.length ≤ u64Max := by
    intro config s h
    obtain ⟨rfl, hbounds, -⟩ :=
      writeValue_ok (t.tree value) (inBounds_new config) (cleared_new config) h
    exact ⟨congrArg List.length (List.nil_append _), hbounds.written_eq ▸ hbounds.le_max⟩
  refine ⟨fun s h => ?_, fun config s h => ?_⟩
  · obtain ⟨hwire, hmax⟩ := hlength h
    obtain ⟨-, hdefault, -, hheight⟩ := writer_eq h
    have hinput : s.writer.length ≤ t.maxInput := by
      have hcaps := t.caps_bytes (enough_inputRates .standard) value
      rw [← hwire] at hcaps
      exact hcaps.le hmax
    have hwork : s.writer.length ≤ t.maxWork := by
      have hcaps := t.caps_bytes (enough_workRates .standard) value
      rw [← hwire] at hcaps
      exact hcaps.le hmax
    have hdepth : (t.tree value).height ≤ t.maxDepth :=
      (t.caps_maxDepth value).le (hheight.trans (by decide))
    have hstatic : t.decodeBounded.staticallyBounded = true := by
      rw [DecodeBounded.staticallyBounded, BoundedType.decodeBounded, t.maxAlloc_eq_zero]
      rfl
    refine ⟨hinput, hdepth, fun input hbytes => ?_⟩
    obtain ⟨n, hread⟩ := readValue_limits h hstatic hinput hwork hdepth hbytes
    obtain ⟨a, u, hdecode, hcursor, hclosed⟩ := haccepts value input _ n _ hread
    refine decodeBounded_ok fromNextjson hdecode hclosed ?_ ?_
    · rw [hcursor, hbytes]
    · rw [hbytes]
      exact le_constOrDefault hinput hdefault
  · obtain ⟨hwire, hmax⟩ := hlength h
    have hcaps := t.caps_bytes (enough_sizeRates config) value
    rw [← hwire] at hcaps
    exact hcaps.le hmax

section Witness

local instance littleEndian : Target := ⟨true⟩

/-- `struct Switch { enabled: bool }`. -/
def switch : BoundedType :=
  .struct (.list .object (.cons ⟨"enabled", by decide⟩ (.primitive .bool) .nil))

/-- The field of a `Switch`. -/
def enabledOf : Tree Token String → Option Bool
  | .node .object (.cons key (.scalar (.bool enabled)) .nil) =>
      if (show String from key) = "enabled" then some enabled else none
  | _ => none

/-- Reads a `Switch`. -/
def readSwitch : Dec Bool := fun s => (do
  let tree ← Decoder.readValue s.input.bytes.length
  match enabledOf tree with
  | some enabled => pure enabled
  | none => throw (.custom "missing field")) s

/-- A caller that has a round for every byte has enough of them. -/
lemma readValue_rounds {input : Input} {config : Config} {n : ℕ} {value : Tree Token String}
    {s : Decoder} (h : Decoder.readValue n (Decoder.new input config) = (.ok value, s)) :
    Decoder.readValue input.bytes.length (Decoder.new input config) = (.ok value, s) := by
  obtain ⟨wire, hfits, hdecode, hwithin, hhere, rfl⟩ := readValue_new_iff.mp ⟨n, h⟩
  refine (readValue_complete _).1 _ wire value (ready_new input config) ?_ hfits hdecode hwithin
    hhere
  obtain ⟨-, hle, -⟩ := slice_eq_some.mp hhere.1
  exact (rounds_le_value wire).trans ((Nat.le_add_left _ _).trans hle)

lemma accepts_readSwitch : Accepts switch readSwitch := by
  rintro ⟨enabled, ⟨⟩⟩ input config n s h
  refine ⟨enabled, s, ?_, rfl, rfl⟩
  exact bind_of_ok (readValue_rounds h)

theorem costAlgebra_sound_switch :
    ∃ decoded, decodeBounded (fun _ => .invalidUtf8) readSwitch switch.decodeBounded
      ⟨[0x0b, 0x09, 7, 101, 110, 97, 98, 108, 101, 100, 0x02, 0xff], by decide⟩
      (Budget.fromType switch.decodeBounded) = .ok decoded := by
  have hok : (Encoder.writeValue (switch.tree (true, ())) (Encoder.new .standard)).1 = .ok () := by
    decide +kernel
  have hbytes : (Encoder.writeValue (switch.tree (true, ())) (Encoder.new .standard)).2.writer =
      [0x0b, 0x09, 7, 101, 110, 97, 98, 108, 101, 100, 0x02, 0xff] := by
    decide +kernel
  exact ((costAlgebra_sound (fun _ => .invalidUtf8) switch accepts_readSwitch (true, ())).1 _
    (Prod.ext hok rfl)).2.2 _ hbytes.symm

end Witness

end RustBinary.Bounded
