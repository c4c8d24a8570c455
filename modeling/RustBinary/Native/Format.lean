import RustBinary.Bounded.Decode
import RustBinary.Compression.Frame
import RustBinary.Native.Agreement

/-!
# The native payload format

A configuration as a format for the values of one type.  The derived `nextencode` of a type makes
the calls for a tree of scalars and passes every error on, and its `nextdecode` takes the tokens
that the tree has on the wire; then what is serialized is deserialized again.
-/

namespace RustBinary.Native

open Lib Lib.Act

/-! ## Writing -/

/-- The call that opens a container. -/
def Event.start : Kind → Event
  | .array => .beginArray
  | .object => .beginObject

/-- The call that closes a container. -/
def Event.finish : Kind → Event
  | .array => .endArray
  | .object => .endObject

/-- The call in front of an entry. -/
def Event.entry : {kind : Kind} → KeyOf String kind → Event
  | .array, _ => .separator
  | .object, text => .key text

namespace Nextencode

/-- A call with a `?`, and what comes behind it. -/
def andThen (event : Event) (next : Nextencode) : Nextencode :=
  .call event fun error =>
    match error with
    | none => next
    | some e => .done (.err e)

mutual

/-- The calls for a value. -/
def value : Tree Scalar String → Nextencode → Nextencode
  | .scalar scalar, next => andThen (.write scalar) next
  | .node kind entries, next =>
      andThen (.start kind) (forest entries (andThen (.finish kind) next))

/-- The calls for the entries of a container. -/
def forest {kind : Kind} : Forest Scalar String kind → Nextencode → Nextencode
  | .nil, next => next
  | .cons key entry rest, next => andThen (.entry key) (value entry (forest rest next))

end

/-- `nextencode` of a value. -/
def ofTree (tree : Tree Scalar String) : Nextencode := value tree (.done (.ok ()))

section Runs

variable [Target] {W : Type} [EncodeWriter W]

lemma run_andThen (event : Event) (next : Nextencode) :
    (andThen event next).run = (event.method >>= fun _ => next.run : EncTo W Unit) := by
  refine ext_run fun s => ?_
  rw [andThen, run]
  rcases hrun : (event.method : EncTo W Unit) s with ⟨out, t⟩
  cases out with
  | ok a =>
      have hnone : ((fun _ => none) <$> event.method : EncTo W (Option NextjsonError)) s
          = (.ok none, t) := map_of_ok hrun
      rw [bind_of_ok (onErr_of_ok hnone), bind_of_ok hrun]
  | err e =>
      have hfail : ((fun _ => none) <$> event.method : EncTo W (Option NextjsonError)) s
          = (.err e, t) := bind_of_err hrun
      have hcaught : onErr ((fun _ => none) <$> event.method : EncTo W (Option NextjsonError))
          (fun e => (pure (some e) : EncTo W (Option NextjsonError))) s = (.ok (some e), t) :=
        onErr_of_err hfail
      rw [bind_of_ok hcaught, bind_of_err hrun]
      rfl
  | panic =>
      have hpanic : ((fun _ => none) <$> event.method : EncTo W (Option NextjsonError)) s
          = (.panic, t) := bind_of_panic hrun
      rw [bind_of_panic hrun]
      refine bind_of_panic ?_
      rw [onErr, hpanic]
  | diverge =>
      have hdiverge : ((fun _ => none) <$> event.method : EncTo W (Option NextjsonError)) s
          = (.diverge, t) := bind_of_diverge hrun
      rw [bind_of_diverge hrun]
      refine bind_of_diverge ?_
      rw [onErr, hdiverge]

lemma method_start (kind : Kind) :
    ((Event.start kind).method : EncTo W Unit) = Encoder.beginContainer kind := by
  cases kind <;> rfl

lemma method_finish (kind : Kind) :
    ((Event.finish kind).method : EncTo W Unit) = Encoder.endContainer kind := by
  cases kind <;> rfl

lemma method_entry {kind : Kind} (key : KeyOf String kind) :
    ((Event.entry key).method : EncTo W Unit) = Encoder.beginEntry key := by
  cases kind <;> rfl

mutual

/-- The calls for a value write the value. -/
lemma run_value : ∀ (tree : Tree Scalar String) (next : Nextencode),
    (value tree next).run = (Encoder.writeValue tree >>= fun _ => next.run : EncTo W Unit)
  | .scalar scalar, next => by
      rw [value, run_andThen, Encoder.writeValue]
      rfl
  | .node kind entries, next => by
      rw [value, run_andThen, run_forest, run_andThen, Encoder.writeValue, method_start,
        method_finish]
      simp only [bind_assoc]

lemma run_forest {kind : Kind} : ∀ (entries : Forest Scalar String kind) (next : Nextencode),
    (forest entries next).run = (Encoder.writeEntries entries >>= fun _ => next.run : EncTo W Unit)
  | .nil, next => by
      rw [forest, Encoder.writeEntries, pure_bind]
  | .cons key entry rest, next => by
      rw [forest, run_andThen, run_value, run_forest, Encoder.writeEntries, method_entry]
      simp only [bind_assoc]

end

lemma run_ofTree (tree : Tree Scalar String) :
    (ofTree tree).run = (Encoder.writeValue tree : EncTo W Unit) := by
  rw [ofTree, run_value]
  exact bind_pure (Encoder.writeValue tree)

end Runs

end Nextencode

/-! ## Reading back -/

variable [Target] {config : Config} (fromNextjson : NextjsonError → Error)

lemma serialize_eq_ok {value : Nextencode} {bytes : List UInt8} :
    serialize fromNextjson config value = .ok bytes ↔
      ∃ s, value.run (Encoder.new config) = (.ok (), s) ∧ s.depth = 0 ∧ s.writer = bytes := by
  have hstart : Encoder.start ([] : List UInt8) config = Encoder.new config := rfl
  rw [serialize, toWriter, hstart]
  rcases value.run (Encoder.new config) with ⟨out, s⟩
  cases out with
  | ok a =>
      by_cases hdepth : s.depth = 0
      · simp [hdepth]
      · simp [hdepth]
  | err e => simp
  | panic => simp
  | diverge => simp

/-- What is serialized is the value on the wire. -/
lemma serialize_ofTree {tree : Tree Scalar String} {bytes : List UInt8}
    (h : serialize fromNextjson config (.ofTree tree) = .ok bytes) :
    Encoder.writeValue tree (Encoder.new config) = (.ok (), wrote (Encoder.new config) bytes) ∧
      bytes = spellValue config (wireOf config tree) := by
  obtain ⟨s, hrun, -, rfl⟩ := (serialize_eq_ok fromNextjson).mp h
  rw [Nextencode.run_ofTree] at hrun
  obtain ⟨rfl, -⟩ := writeValue_ok tree (inBounds_new config) (cleared_new config) hrun
  exact ⟨hrun, List.nil_append _⟩

/-- What is serialized is read back, all of it. -/
lemma readValue_serialize {tree : Tree Scalar String} (input : Input)
    (h : serialize fromNextjson config (.ofTree tree) = .ok input.bytes) :
    ∃ n, Decoder.readValue n (Decoder.new input config) = (.ok (tree.map Scalar.token id),
      { Decoder.new input config with cursor := input.bytes.length }) := by
  obtain ⟨hwrite, hbytes⟩ := serialize_ofTree fromNextjson h
  obtain ⟨-, hbounds, hfits, hwithin⟩ :=
    writeValue_ok tree (inBounds_new config) (cleared_new config) hwrite
  have hlimit : ∀ l, config.limit = some l → input.bytes.length ≤ l := fun l hl => by
    have hwritten := hbounds.le_limit l hl
    rwa [wrote, show (Encoder.new config).written = 0 from rfl, Nat.zero_add] at hwritten
  have hdecode : decodeValue config (wireOf config tree) = some (tree.map Scalar.token id) :=
    Tree.mapOption_map (Scalar.token_wire (c := config)) fromUtf8_toUtf8 tree
  have hhere : Tape.Here (Decoder.new input config) (spellValue config (wireOf config tree)) := by
    rw [← hbytes]
    refine ⟨slice_eq_some.mpr ⟨Nat.le_add_right _ _, (Nat.zero_add _).le, ?_⟩, fun l hl => ?_⟩
    · simp [Decoder.new]
    · rw [show (Decoder.new input config).cursor = 0 from rfl, Nat.zero_add]
      exact hlimit l hl
  have hread := (readValue_complete _).1 _ _ _ (ready_new input config) le_rfl hfits hdecode
    ((Tree.within_map _ _ _ _ tree).mpr hwithin) hhere
  rw [← hbytes] at hread
  refine ⟨_, hread.trans ?_⟩
  simp only [after, Tape.advance, Decoder.new, Nat.zero_add]

/-! ## Types -/

/-- A type with the two derives: the tree of a value, and the deserializer, which goes as far as the
tokens of the tree and comes back with the value. -/
structure WireType (V : Type) where
  tree : V → Tree Scalar String
  nextdecode : Dec V
  reads : ∀ (value : V) (input : Input) (config : Config) (n : ℕ) (s : Decoder),
    Decoder.readValue n (Decoder.new input config) = (.ok ((tree value).map Scalar.token id), s) →
      ∃ u, nextdecode (Decoder.new input config) = (.ok value, u) ∧ u.cursor = s.cursor ∧
        u.depth = s.depth

section Codec

omit [Target]

variable {V : Type} (nextdecode : Dec V)

/-- `from_slice`. -/
def fromSlice (input : Input) (config : Config) : Outcome Error V := do
  let (value, consumed) ← Bounded.fromSliceWithConsumed fromNextjson nextdecode input config
  if config.trailing = .reject ∧ consumed ≠ input.bytes.length then
    .err (.trailingBytes (input.bytes.length - consumed))
  else .ok value

/-- `Config::deserialize`; no slice is longer than a `u64` can count. -/
def deserialize (config : Config) (bytes : List UInt8) : Outcome Error V :=
  if h : bytes.length ≤ u64Max then fromSlice fromNextjson nextdecode ⟨bytes, h⟩ config else .panic

end Codec

namespace WireType

variable {V : Type} (type : WireType V)

lemma deserialize_serialize (value : V) (payload : List UInt8)
    (h : serialize fromNextjson config (.ofTree (type.tree value)) = .ok payload) :
    deserialize fromNextjson type.nextdecode config payload = .ok value := by
  obtain ⟨hwrite, -⟩ := serialize_ofTree fromNextjson h
  obtain ⟨-, hbounds, -⟩ :=
    writeValue_ok (type.tree value) (inBounds_new config) (cleared_new config) hwrite
  have hmax : payload.length ≤ u64Max := by
    have hwritten := hbounds.le_max
    rwa [wrote, show (Encoder.new config).written = 0 from rfl, Nat.zero_add] at hwritten
  obtain ⟨n, hread⟩ := readValue_serialize fromNextjson ⟨payload, hmax⟩ h
  obtain ⟨u, hdecode, hcursor, hdepth⟩ := type.reads value _ config n _ hread
  have hconsumed : Bounded.fromSliceWithConsumed fromNextjson type.nextdecode ⟨payload, hmax⟩ config
      = .ok (value, payload.length) := by
    rw [Bounded.fromSliceWithConsumed, hdecode]
    dsimp only
    rw [if_neg (by rw [hdepth]; exact fun hne => hne rfl), hcursor]
  rw [deserialize, dif_pos hmax, fromSlice, hconsumed, Outcome.ok_bind]
  exact if_neg fun htrailing => htrailing.2 rfl

/-- The format of a type under a configuration. -/
def format (config : Config) : Compression.PayloadFormat V where
  base := config
  serialize value := serialize fromNextjson config (.ofTree (type.tree value))
  deserialize := deserialize fromNextjson type.nextdecode config
  deserialize_serialize := type.deserialize_serialize fromNextjson
  length_le value payload h limit hlimit := by
    obtain ⟨hwrite, -⟩ := serialize_ofTree fromNextjson h
    obtain ⟨-, hbounds, -⟩ :=
      writeValue_ok (type.tree value) (inBounds_new config) (cleared_new config) hwrite
    have hwritten := hbounds.le_limit limit hlimit
    rwa [wrote, show (Encoder.new config).written = 0 from rfl, Nat.zero_add] at hwritten

/-- `String`. -/
def text : WireType String where
  tree value := .scalar (.str value)
  nextdecode := Decoder.string
  reads value input config n s h := by
    cases n with
    | zero => simp [Decoder.readValue, diverge] at h
    | succ n =>
      rcases (readValue_succ (ready_new input config)).mp h with
        ⟨token, hread, -, htoken⟩ | ⟨kind, t, -, -, h⟩
      · obtain rfl : Token.str value = token := Tree.scalar.inj htoken
        exact ⟨s, bind_of_ok hread, rfl, rfl⟩
      · rw [Decoder.closeContainer, bind_eq_ok] at h
        obtain ⟨entries, u, -, h⟩ := h
        rw [bind_eq_ok] at h
        obtain ⟨_, _, -, h⟩ := h
        cases congrArg Prod.fst h

end WireType

end RustBinary.Native
