import RustBinary.Cbor.Deterministic
import RustBinary.Cbor.RoundTrip
import RustBinary.Compression.Frame

/-!
# The CBOR payload format

A CBOR configuration as a format for the values of one type.  The derived `nextencode` of a type
makes the calls for a tree, and its `nextdecode` the calls that match them; in deterministic mode
the tree has gone through a `Value`, with its keys sorted, and `nextdecode` takes the entries of an
object in any order, as that of a struct does.  Then what is serialized is deserialized again, in
both modes.
-/

namespace RustBinary.Cbor

open Lib Lib.Outcome

/-! ## Reading a whole payload -/

section Decoding

-- `Error::from_nextjson`, and `NsonDeserialize::nextdecode` of the type
variable {V : Type} (fromNextjson : NextjsonError → Error) (nextdecode : Dec V)

/-- `CborDecoder::decode`. -/
def decode (input : Input) (config : Config) : Outcome Error V :=
  match nextdecode (CborDecoder.new input config) with
  | (.ok value, s) =>
      if s.depth ≠ 0 then .err (.custom "decoder finished inside an unclosed container")
      else if config.trailing = .reject ∧ s.cursor ≠ input.bytes.length then
        .err (.trailingBytes (input.bytes.length - s.cursor))
      else .ok value
  | (.err e, s) => .err (s.wireError.getD (fromNextjson e))
  | (.panic, _) => .panic
  | (.diverge, _) => .diverge

/-- `CborConfig::deserialize`; no slice is longer than a `u64` can count. -/
def CborConfig.deserialize (c : CborConfig) (bytes : List UInt8) : Outcome Error V := do
  c.base.enforceByteLimit bytes.length
  if h : bytes.length ≤ u64Max then decode fromNextjson nextdecode ⟨bytes, h⟩ c.base else .panic

variable {fromNextjson nextdecode}

/-- The trailing policy, behind a value that has been read. -/
lemma decode_of_read {input : Input} {config : Config} {value : V} {s : CborDecoder}
    (h : nextdecode (CborDecoder.new input config) = (.ok value, s)) (hdepth : s.depth = 0) :
    decode fromNextjson nextdecode input config =
      if config.trailing = .reject ∧ s.cursor ≠ input.bytes.length then
        .err (.trailingBytes (input.bytes.length - s.cursor))
      else .ok value := by
  rw [decode, h]
  exact if_neg (not_not_intro hdepth)

end Decoding

/-! ## What the encoder has written -/

section Written

variable {fromNextjson : NextjsonError → Error} {c : CborConfig} {tree : Tree Leaf String}
  {bytes : List UInt8}

/-- What is written as it stands is written by `finish`. -/
lemma encodeValue_plain {base : Config}
    (h : CborConfig.encodeValue fromNextjson ⟨base, false⟩ tree = .ok bytes) :
    ∃ n s, CborEncoder.finish fromNextjson tree (.new [] base) = (.ok n, s) ∧
      s.writer = bytes := by
  rw [CborConfig.encodeValue, if_neg Bool.false_ne_true, ok_bind] at h
  dsimp only at h
  rcases hfinish : CborEncoder.finish fromNextjson tree (.new ([] : List UInt8) base) with
    ⟨n | _ | _ | _, s⟩ <;> rw [hfinish] at h
  · obtain ⟨_, -, h⟩ := bind_eq_ok.mp h
    exact ⟨n, s, rfl, Outcome.ok.inj h⟩
  all_goals cases h

/-- What is written is written by `finish`, of the tree or of the tree with its keys sorted. -/
lemma encodeValue_eq_ok (h : c.encodeValue fromNextjson tree = .ok bytes) :
    ∃ out n s, (c.deterministic = false ∧ out = tree ∨
        c.deterministic = true ∧ tree.Reorders out) ∧
      CborEncoder.finish fromNextjson out (.new [] c.base) = (.ok n, s) ∧ s.writer = bytes := by
  obtain ⟨base, deterministic⟩ := c
  cases deterministic with
  | false =>
      obtain ⟨n, s, hfinish, hwriter⟩ := encodeValue_plain h
      exact ⟨tree, n, s, .inl ⟨rfl, rfl⟩, hfinish, hwriter⟩
  | true =>
      rw [CborConfig.encodeValue, if_pos rfl] at h
      obtain ⟨out, hout, h⟩ := bind_eq_ok.mp h
      obtain ⟨-, rfl⟩ := canonicalize_eq_ok.mp hout
      obtain ⟨n, s, hfinish, hwriter⟩ := encodeValue_plain h
      exact ⟨_, n, s, .inr ⟨rfl, tree.reorders_sortKeys⟩, hfinish, hwriter⟩

/-- What `finish` has written fits the limits, and the calls for the tree get it back from the front
of an input. -/
lemma run_finish (narrow : Number → Option UInt8) {n : ℕ} {s : CborEncoder (List UInt8)}
    (h : CborEncoder.finish fromNextjson tree (.new [] c.base) = (.ok n, s)) :
    s.writer.length ≤ u64Max ∧ (∀ l, c.base.limit = some l → s.writer.length ≤ l) ∧
      ∀ input : Input, s.writer <+: input.bytes →
        run (step narrow) (treeCalls tree) (CborDecoder.new input c.base) =
          ((treeAnswers tree).map .ok,
            { CborDecoder.new input c.base with cursor := s.writer.length }) := by
  obtain ⟨item, hitem, hwriter, rfl, hmax, hlimit, hwithin⟩ := CborEncoder.finish_ok h
  refine ⟨hwriter ▸ hmax, fun l hl => hwriter ▸ hlimit l hl, fun input hinput => ?_⟩
  rw [hwriter] at hinput
  have hrun := run_item_new narrow hinput hwithin hlimit hitem.charges
  have hafter : item.after (CborDecoder.new input c.base) =
      { CborDecoder.new input c.base with cursor := item.encode.length } := by
    rw [Item.after]
    split <;> simp [CborDecoder.advance, CborDecoder.charge, CborDecoder.new, CborDecoder.chargeTop]
  rw [hwriter, ← hitem.calls, ← hitem.rets, hrun, hafter]

end Written

/-! ## Types -/

/-- A type with the two derives: the tree of the calls for a value, the tree of the `Value` that
`to_value` makes of it, and the deserializer, which goes as far as the calls that match and comes
back with the value, whatever order the entries of the `Value` are in. -/
structure CborType (V : Type) (narrow : Number → Option UInt8) where
  tree : V → Tree Leaf String
  toValue : V → Tree Leaf String
  nextdecode : Dec V
  reads : ∀ (value : V) (out : Tree Leaf String),
    out = tree value ∨ (toValue value).Reorders out →
    ∀ (input : Input) (config : Config) (s : CborDecoder),
      run (step narrow) (treeCalls out) (CborDecoder.new input config) =
        ((treeAnswers out).map .ok, s) →
      ∃ u, nextdecode (CborDecoder.new input config) = (.ok value, u) ∧ u.cursor = s.cursor ∧
        u.depth = s.depth

namespace CborType

variable {V : Type} {narrow : Number → Option UInt8} (type : CborType V narrow)
  (fromNextjson : NextjsonError → Error) (c : CborConfig)

/-- `CborConfig::serialize`. -/
def serialize (value : V) : Outcome Error (List UInt8) :=
  c.encodeValue fromNextjson (if c.deterministic then type.toValue value else type.tree value)

variable {type fromNextjson c}

lemma length_le_limit {value : V} {payload : List UInt8}
    (h : type.serialize fromNextjson c value = .ok payload) :
    ∀ limit, c.base.limit = some limit → payload.length ≤ limit := by
  obtain ⟨out, n, s, -, hfinish, rfl⟩ := encodeValue_eq_ok h
  exact (run_finish narrow hfinish).2.1

/-- A value that has been written is read from the front of an input within the limit. -/
lemma deserialize_append {value : V} {payload : List UInt8}
    (h : type.serialize fromNextjson c value = .ok payload) {rest : List UInt8}
    (hmax : (payload ++ rest).length ≤ u64Max)
    (hlimit : ∀ limit, c.base.limit = some limit → (payload ++ rest).length ≤ limit) :
    c.deserialize fromNextjson type.nextdecode (payload ++ rest) =
      if c.base.trailing = .reject ∧ rest ≠ [] then .err (.trailingBytes rest.length)
      else .ok value := by
  obtain ⟨out, n, s, hout, hfinish, rfl⟩ := encodeValue_eq_ok h
  obtain ⟨-, -, hrun⟩ := run_finish narrow hfinish
  have hreads : out = type.tree value ∨ (type.toValue value).Reorders out := by
    rcases hout with ⟨hmode, rfl⟩ | ⟨hmode, hreorders⟩
    · exact .inl (by rw [hmode]; rfl)
    · rw [if_pos hmode] at hreorders
      exact .inr hreorders
  obtain ⟨u, hdecode, hcursor, hdepth⟩ := type.reads value out hreads ⟨s.writer ++ rest, hmax⟩
    c.base _ (hrun ⟨s.writer ++ rest, hmax⟩ (List.prefix_append _ _))
  have henforce : c.base.enforceByteLimit (s.writer ++ rest).length = .ok () :=
    Config.enforceByteLimit_eq_ok.mpr hlimit
  have hremaining : (s.writer ++ rest).length - u.cursor = rest.length := by
    rw [hcursor, List.length_append]
    exact Nat.add_sub_cancel_left _ _
  have hrest : u.cursor ≠ (s.writer ++ rest).length ↔ rest ≠ [] := by
    rw [hcursor, List.length_append, ← List.length_pos_iff_ne_nil]
    dsimp only
    omega
  rw [CborConfig.deserialize, henforce, ok_bind, dif_pos hmax, decode_of_read hdecode hdepth]
  dsimp only
  rw [hremaining]
  exact if_congr (and_congr_right fun _ => hrest) rfl rfl

/-- What has been written is read back. -/
lemma deserialize_serialize {value : V} {payload : List UInt8}
    (h : type.serialize fromNextjson c value = .ok payload) :
    c.deserialize fromNextjson type.nextdecode payload = .ok value := by
  have hmax : payload.length ≤ u64Max := by
    obtain ⟨out, n, s, -, hfinish, rfl⟩ := encodeValue_eq_ok h
    exact (run_finish narrow hfinish).1
  rw [← List.append_nil payload] at hmax ⊢
  rw [deserialize_append h hmax (by rw [List.append_nil]; exact length_le_limit h)]
  exact if_neg fun hrest => hrest.2 rfl

variable (type fromNextjson c)

/-- The format of a type under a configuration. -/
def format : Compression.PayloadFormat V where
  base := c.base
  serialize := type.serialize fromNextjson c
  deserialize := c.deserialize fromNextjson type.nextdecode
  deserialize_serialize _ _ := deserialize_serialize
  length_le _ _ := length_le_limit

/-! ### Records -/

/-- The value of a struct with the fields `names`, all of them texts. -/
abbrev Record (names : List String) :=
  {fields : List (String × String) // fields.map Prod.fst = names}

namespace Record

variable {names : List String}

/-- The entry of a field. -/
def entry (field : String × String) : Lib.KeyOf String .object × Tree Leaf String :=
  (field.1, .scalar (.scalar (.str field.2)))

/-- The text of an entry. -/
def field (entry : Lib.KeyOf String .object × Tree Leaf String) : String × String :=
  (entry.1, match entry.2 with
    | .scalar (.scalar (.str text)) => text
    | _ => "")

/-- The entries of some fields. -/
def forest (fields : List (String × String)) : Forest Leaf String .object :=
  .ofEntries (fields.map entry)

/-- The object with the fields in some order. -/
def object (fields : List (String × String)) : Tree Leaf String := .node .object (forest fields)

/-- The entries of an object, `fuel` of them at most. -/
def readEntries : ℕ → Dec (List (String × String))
  | 0 => pure []
  | fuel + 1 => do
      match ← CborDecoder.objectKey with
      | none => pure []
      | some key => do
          let text ← CborDecoder.string
          let more ← CborDecoder.entrySep
          if more then do
            let rest ← readEntries fuel
            pure ((key, text) :: rest)
          else pure [(key, text)]

/-- The fields by their names; one that is missing is empty. -/
def ofEntries (names : List String) (entries : List (String × String)) : Record names :=
  ⟨names.map fun name => (name, (entries.lookup name).getD ""), by
    rw [List.map_map]
    exact List.map_id _⟩

/-- A `nextdecode` that takes the fields in the order that they come in. -/
def nextdecode (names : List String) : Dec (Record names) := do
  CborDecoder.beginObject
  let entries ← readEntries (names.length + 1)
  CborDecoder.endContainer .object
  pure (ofEntries names entries)

lemma lookup_of_mem {fields : List (String × String)} (hnames : (fields.map Prod.fst).Nodup)
    {name text : String} (h : (name, text) ∈ fields) : fields.lookup name = some text := by
  induction fields with
  | nil => cases h
  | cons field fields ih =>
      obtain ⟨hnew, hrest⟩ := List.nodup_cons.mp hnames
      rcases List.mem_cons.mp h with rfl | h
      · exact List.lookup_cons_self
      · have hne : (name == field.1) = false := by
          refine beq_false_of_ne fun heq => hnew ?_
          exact heq ▸ List.mem_map_of_mem h
        rw [List.lookup_cons, hne]
        exact ih hrest h

/-- The order of the entries does not matter. -/
lemma ofEntries_of_perm (hnames : names.Nodup) (record : Record names)
    {entries : List (String × String)} (hperm : record.1.Perm entries) :
    ofEntries names entries = record := by
  obtain ⟨fields, rfl⟩ := record
  have hdistinct : (entries.map Prod.fst).Nodup := ((hperm.map Prod.fst).nodup_iff).mp hnames
  refine Subtype.ext ?_
  change (fields.map Prod.fst).map _ = fields
  rw [List.map_map]
  refine (List.map_congr_left fun field hfield => ?_).trans (List.map_id fields)
  exact Prod.ext rfl (by
    rw [Function.comp_apply, lookup_of_mem hdistinct (hperm.subset hfield)]
    rfl)

/-- The values are scalars, so that nothing is reordered but the entries. -/
lemma reordersEach_forest {fields : List (String × String)} {other : Forest Leaf String .object}
    (h : (forest fields).ReordersEach other) : other = forest fields := by
  induction fields generalizing other with
  | nil => exact h
  | cons field fields ih =>
      obtain ⟨value, rest, hvalue, hrest, rfl⟩ := h
      obtain rfl : value = .scalar (.scalar (.str field.2)) := hvalue
      rw [ih hrest]
      rfl

lemma shuffled_forest {fields : List (String × String)} {other : Forest Leaf String .object}
    (h : (forest fields).Shuffled other) :
    ∃ shuffled, other = forest shuffled ∧ fields.Perm shuffled := by
  have hperm : (fields.map entry).Perm other.entries :=
    (Forest.entries_ofEntries (fields.map entry)) ▸ h
  -- every entry is that of a field
  have hentries : (other.entries.map field).map entry = other.entries := by
    rw [List.map_map]
    refine (List.map_congr_left fun e he => ?_).trans (List.map_id _)
    obtain ⟨f, -, rfl⟩ := List.mem_map.mp (hperm.symm.subset he)
    rfl
  have hfields : (fields.map entry).map field = fields := by
    rw [List.map_map]
    exact List.map_id fields
  refine ⟨other.entries.map field, ?_, ?_⟩
  · rw [forest, hentries, Forest.ofEntries_entries]
  · have hmap := hperm.map field
    rwa [hfields] at hmap

lemma reorders_object {fields : List (String × String)} {out : Tree Leaf String}
    (h : (object fields).Reorders out) :
    ∃ shuffled, out = object shuffled ∧ fields.Perm shuffled := by
  obtain ⟨between, other, hbetween, hshuffled, rfl⟩ := h
  obtain rfl := reordersEach_forest hbetween
  obtain ⟨shuffled, rfl, hperm⟩ := shuffled_forest hshuffled
  exact ⟨shuffled, rfl, hperm⟩

section Run

variable {narrow : Number → Option UInt8} {s t : CborDecoder}

lemma run_cons_ok {call : CborCall} {calls : List CborCall} {answer : Answer}
    {answers : List Answer}
    (h : run (step narrow) (call :: calls) s = ((answer :: answers).map .ok, t)) :
    ∃ u, step narrow call s = (.ok answer, u) ∧
      run (step narrow) calls u = (answers.map .ok, t) := by
  obtain ⟨hanswers, rfl⟩ := Prod.mk.inj h
  obtain ⟨hanswer, hrest⟩ := List.cons.inj hanswers
  exact ⟨_, Prod.ext hanswer rfl, Prod.ext hrest rfl⟩

lemma endContainer_of_run
    (h : run (step narrow) [closeCall .object] s = ([Answer.unit].map .ok, t)) :
    CborDecoder.endContainer .object s = (.ok (), t) := by
  have hlast : ∃ u, step narrow (closeCall .object) s = (.ok .unit, u) ∧
      run (step narrow) [] u = (([] : List Answer).map .ok, t) := run_cons_ok h
  obtain ⟨u, hcall, hrun⟩ := hlast
  obtain rfl : u = t := congrArg Prod.snd hrun
  obtain ⟨_, hclose, -⟩ := Act.map_eq_ok.mp hcall
  exact hclose

/-- The entries are read with the calls for them. -/
lemma readEntries_of_run {fields : List (String × String)} (hfields : fields ≠ []) {fuel : ℕ}
    (hfuel : fields.length ≤ fuel)
    (h : run (step narrow) (forestCalls (forest fields) ++ [closeCall .object]) s =
      ((forestAnswers (forest fields) ++ [Answer.unit]).map .ok, t)) :
    ∃ u, readEntries fuel s = (.ok fields, u) ∧
      CborDecoder.endContainer .object u = (.ok (), t) := by
  induction fields generalizing s fuel with
  | nil => exact absurd rfl hfields
  | cons field fields ih =>
      obtain ⟨key, text⟩ := field
      cases fuel with
      | zero => exact absurd hfuel (Nat.not_succ_le_zero _)
      | succ fuel =>
          obtain ⟨u, hkey, h⟩ := run_cons_ok h
          obtain ⟨v, htext, h⟩ := run_cons_ok h
          obtain ⟨w, hsep, h⟩ := run_cons_ok h
          obtain ⟨_, hkey, hkeyEq⟩ := Act.map_eq_ok.mp hkey
          obtain ⟨_, htext, htextEq⟩ := Act.map_eq_ok.mp htext
          obtain ⟨_, hsep, hsepEq⟩ := Act.map_eq_ok.mp hsep
          obtain rfl := Answer.key.inj hkeyEq
          obtain rfl := Answer.string.inj htextEq
          obtain rfl := Answer.bool.inj hsepEq
          rw [readEntries, Act.bind_of_ok hkey]
          dsimp only
          rw [Act.bind_of_ok htext, Act.bind_of_ok hsep]
          cases fields with
          | nil => exact ⟨w, rfl, endContainer_of_run h⟩
          | cons next fields =>
              obtain ⟨u, hread, hclose⟩ :=
                ih (List.cons_ne_nil _ _) (Nat.le_of_succ_le_succ hfuel) h
              refine ⟨u, ?_, hclose⟩
              rw [if_pos (by rfl), Act.bind_of_ok hread]
              rfl

lemma nextdecode_of_run {names : List String} {fields : List (String × String)}
    (hlen : fields.length = names.length)
    (h : run (step narrow) (treeCalls (object fields)) s =
      ((treeAnswers (object fields)).map .ok, t)) :
    nextdecode names s = (.ok (ofEntries names fields), t) := by
  cases fields with
  | nil =>
      obtain ⟨u, hopen, h⟩ := run_cons_ok h
      obtain ⟨v, hkey, h⟩ := run_cons_ok h
      obtain ⟨_, hopen, -⟩ := Act.map_eq_ok.mp hopen
      obtain ⟨_, hkey, hkeyEq⟩ := Act.map_eq_ok.mp hkey
      obtain rfl := Answer.key.inj hkeyEq
      have hread : readEntries (names.length + 1) u = (.ok [], v) := by
        rw [readEntries, Act.bind_of_ok hkey]
        rfl
      rw [nextdecode, Act.bind_of_ok hopen, Act.bind_of_ok hread,
        Act.bind_of_ok (endContainer_of_run h)]
      rfl
  | cons field fields =>
      obtain ⟨u, hopen, h⟩ := run_cons_ok h
      obtain ⟨_, hopen, -⟩ := Act.map_eq_ok.mp hopen
      obtain ⟨v, hread, hclose⟩ := readEntries_of_run (List.cons_ne_nil field fields)
        (hlen.trans_le (Nat.le_succ _)) h
      rw [nextdecode, Act.bind_of_ok hopen, Act.bind_of_ok hread, Act.bind_of_ok hclose]
      rfl

end Run

end Record

/-- A struct of texts. -/
def record (names : List String) (hnames : names.Nodup) (narrow : Number → Option UInt8) :
    CborType (Record names) narrow where
  tree record := Record.object record.1
  toValue record := Record.object record.1
  nextdecode := Record.nextdecode names
  reads record out hout input config s h := by
    have hfields : ∃ shuffled, out = Record.object shuffled ∧ record.1.Perm shuffled := by
      rcases hout with rfl | hreorders
      · exact ⟨_, rfl, List.Perm.refl _⟩
      · exact Record.reorders_object hreorders
    obtain ⟨shuffled, rfl, hperm⟩ := hfields
    have hlen : shuffled.length = names.length := by
      have hnames := congrArg List.length record.2
      rw [List.length_map] at hnames
      exact hperm.length_eq.symm.trans hnames
    refine ⟨s, ?_, rfl, rfl⟩
    rw [Record.nextdecode_of_run hlen h, Record.ofEntries_of_perm hnames record hperm]

end CborType

/-- **Typed round trip.**  In either mode what is written for a value keeps the byte limit and is
read back to the value.  With anything behind it the value is read all the same, unless the policy
rejects what is behind it, or the whole is beyond the limit. -/
theorem typed_roundTrip {V : Type} {narrow : Number → Option UInt8} (type : CborType V narrow)
    (fromNextjson : NextjsonError → Error) (c : CborConfig) (value : V) (payload : List UInt8)
    (h : type.serialize fromNextjson c value = .ok payload) :
    (∀ limit, c.base.limit = some limit → payload.length ≤ limit) ∧
      c.deserialize fromNextjson type.nextdecode payload = .ok value ∧
      ∀ rest, (payload ++ rest).length ≤ u64Max →
        ((∀ limit, c.base.limit = some limit → (payload ++ rest).length ≤ limit) →
          c.deserialize fromNextjson type.nextdecode (payload ++ rest) =
            if c.base.trailing = .reject ∧ rest ≠ [] then .err (.trailingBytes rest.length)
            else .ok value) ∧
        ∀ limit, c.base.limit = some limit → limit < (payload ++ rest).length →
          c.deserialize fromNextjson type.nextdecode (payload ++ rest) =
            .err (.sizeLimit limit) := by
  refine ⟨CborType.length_le_limit h, CborType.deserialize_serialize h, fun rest hmax =>
    ⟨CborType.deserialize_append h hmax, fun limit hlimit hlt => ?_⟩⟩
  rw [CborConfig.deserialize, Config.enforceByteLimit, hlimit]
  dsimp only
  rw [if_pos hlt]
  rfl

/-- A label and a key, sorted by their names on the way; and a byte behind them. -/
theorem typed_roundTrip_record :
    let c := CborConfig.mk .standard true
    let nextdecode := CborType.Record.nextdecode ["label", "id"]
    let payload : List UInt8 :=
      [0xbf, 0x62, 0x69, 0x64, 0x61, 0x37, 0x65, 0x6c, 0x61, 0x62, 0x65, 0x6c, 0x62, 0x68, 0x69,
        0xff]
    c.deserialize (fun _ => .unexpectedEnd) nextdecode payload =
        .ok ⟨[("label", "hi"), ("id", "7")], rfl⟩ ∧
      c.deserialize (fun _ => .unexpectedEnd) nextdecode (payload ++ [0]) =
        .err (.trailingBytes 1) := by
  intro c nextdecode payload
  have hsorted : canonicalize (CborType.Record.object [("label", "hi"), ("id", "7")]) =
      .ok (CborType.Record.object [("id", "7"), ("label", "hi")]) := by
    have hreorders : (CborType.Record.object [("id", "7"), ("label", "hi")]).Reorders
        (CborType.Record.object [("label", "hi"), ("id", "7")]) := by
      refine ⟨_, _, ⟨_, _, rfl, ⟨_, _, rfl, rfl, rfl⟩, rfl⟩, ?_, rfl⟩
      exact List.Perm.swap _ _ _
    have hlt : Strictly canonicalLe "id" "label" := ⟨by decide, by decide⟩
    have hincreasing : (CborType.Record.object [("id", "7"), ("label", "hi")]).Sorted
        (Strictly canonicalLe) :=
      ⟨List.pairwise_pair.mpr hlt, trivial, trivial, trivial⟩
    obtain ⟨hdistinct, hsame⟩ := hincreasing.sortKeys_eq keyOrder_canonicalLe
    rw [canonicalize_reorders hreorders]
    exact canonicalize_eq_ok.mpr ⟨hdistinct, hsame.symm⟩
  have hwritten : (CborType.record ["label", "id"] (by decide) narrowUnsigned).serialize
      (fun _ => .unexpectedEnd) c ⟨[("label", "hi"), ("id", "7")], rfl⟩ = .ok payload := by
    rw [CborType.serialize, CborConfig.encodeValue, if_pos rfl, if_pos rfl]
    change (canonicalize (CborType.Record.object [("label", "hi"), ("id", "7")]) >>= _) = _
    rw [hsorted, ok_bind]
    decide +kernel
  obtain ⟨-, hread, hbehind⟩ := typed_roundTrip
    (CborType.record ["label", "id"] (by decide) narrowUnsigned) (fun _ => .unexpectedEnd) c
    ⟨[("label", "hi"), ("id", "7")], rfl⟩ payload hwritten
  exact ⟨hread, (hbehind [0] (by decide)).1 fun limit hlimit => by
    rw [← Option.some.inj hlimit]
    decide⟩

end RustBinary.Cbor
