import RustBinary.Evolution.Errors

/-!
# Readers and writers of different versions

A reader knows the fields of its own version of a schema, and the frame has those of the version
that has written it.  A decoding asks for its fields one after the other and looks at last at what
is unknown to it.  What it gets depends on the fields alone: not on the order in which they were
added or are asked for, nor on the fields that it does not know.
-/

namespace RustBinary.Evolution

open Lib Lib.Act FieldEncoder FieldDecoder

variable {V : Type}

/-- A call of an accessor by a `decode_fields`, with values of all its fields in one type. -/
structure Request (V : Type) where
  id : UInt32
  accessor : Accessor
  default : V
  deserialize : List UInt8 → Outcome Error V

namespace Request

def call (request : Request V) : Act FieldDecoder Error (Option V) :=
  request.accessor.call request.default request.deserialize request.id

/-- What the accessor gives for a field that is not there, if it does not fail. -/
def whenAbsent (request : Request V) : Option (Option V) :=
  match request.accessor with
  | .required => none
  | .optional => some none
  | .orDefault => some (some request.default)

/-- The fields do not have the one that is asked for. -/
def Absent (request : Request V) (es : List EncodedField) : Prop := ∀ e ∈ es, e.id ≠ request.id

instance (request : Request V) (es : List EncodedField) : Decidable (request.Absent es) :=
  inferInstanceAs (Decidable (∀ e ∈ es, e.id ≠ request.id))

/-- What a request for one of the fields `es` is answered with. -/
def Answers (request : Request V) (es : List EncodedField) (value : Option V) : Prop :=
  (request.Absent es ∧ request.whenAbsent = some value) ∨
    ∃ e ∈ es, e.id = request.id ∧ ∃ v, request.deserialize e.payload = .ok v ∧ value = some v

variable {base : Config} {ids : List UInt32} {es fs : List EncodedField} {request : Request V}

lemma call_eq_ok_of_absent {d u : FieldDecoder} {value : Option V}
    (h : FieldDecoder.optional request.deserialize request.id d = (.ok none, d)) :
    request.call d = (.ok value, u) ↔ request.whenAbsent = some value ∧ u = d := by
  rw [Request.call, whenAbsent]
  cases request.accessor with
  | required =>
      rw [Accessor.call, FieldDecoder.required, bind_run, bind_run, h]
      simp
  | optional =>
      rw [Accessor.call, h]
      simp only [Prod.mk.injEq, Outcome.ok.injEq, Option.some.injEq, eq_comm]
  | orDefault =>
      rw [Accessor.call, FieldDecoder.orDefault, bind_run, bind_run, h]
      simp [eq_comm]

/-- A request is answered, and its field marked, unless the field has been asked for before. -/
lemma call_eq_ok (hes : Increasing es) {value : Option V} {u : FieldDecoder} :
    request.call ⟨base, asked ids es⟩ = (.ok value, u) ↔
      (request.id ∈ ids → request.Absent es) ∧ request.Answers es value ∧
        u = ⟨base, asked (request.id :: ids) es⟩ := by
  rcases optional_run base ids request.deserialize request.id hes with
    ⟨habsent, hrun⟩ | ⟨e, he, hid, ⟨hmem, hrun⟩ | ⟨hmem, hrun⟩⟩
  · rw [call_eq_ok_of_absent hrun, asked_cons_of_absent habsent]
    refine ⟨fun h => ⟨fun _ => habsent, .inl ⟨habsent, h.1⟩, h.2⟩, ?_⟩
    rintro ⟨-, ⟨-, hvalue⟩ | ⟨e, he, hid, -⟩, rfl⟩
    · exact ⟨hvalue, rfl⟩
    · exact absurd hid (habsent e he)
  · have hcall : request.call ⟨base, asked ids es⟩ = _ :=
      call_of_optional hrun (by simp) request.accessor
    constructor
    · intro h
      cases hcall.symm.trans h
    · rintro ⟨hfresh, -, -⟩
      exact absurd hid (hfresh hmem e he)
  · have hne : (request.deserialize e.payload >>= fun value => pure (some value)) ≠
        (.ok none : Outcome Error (Option V)) := by
      intro h
      obtain ⟨_, -, hnone⟩ := Outcome.bind_eq_ok.mp h
      cases hnone
    have hcall : request.call ⟨base, asked ids es⟩ = _ :=
      call_of_optional hrun hne request.accessor
    rw [hcall, Prod.mk.injEq]
    have hunique : ∀ f ∈ es, f.id = request.id → f = e :=
      fun f hf hfid => hes.eq_of_id hf he (hfid.trans hid.symm)
    constructor
    · rintro ⟨hvalue, rfl⟩
      obtain ⟨v, hv, hvalue⟩ := Outcome.bind_eq_ok.mp hvalue
      exact ⟨fun h => absurd h hmem, .inr ⟨e, he, hid, v, hv, (Outcome.ok.inj hvalue).symm⟩, rfl⟩
    · rintro ⟨-, ⟨habsent, -⟩ | ⟨f, hf, hfid, v, hv, rfl⟩, rfl⟩
      · exact absurd hid (habsent e he)
      · rw [hunique f hf hfid] at hv
        rw [hv]
        exact ⟨rfl, rfl⟩

/-- The order of the fields does not matter. -/
lemma absent_perm (h : es.Perm fs) : request.Absent es ↔ request.Absent fs :=
  forall_congr' fun _ => imp_congr_left h.mem_iff

lemma answers_perm (h : es.Perm fs) (value : Option V) :
    request.Answers es value ↔ request.Answers fs value := by
  rw [Answers, Answers, absent_perm h]
  refine or_congr Iff.rfl (exists_congr fun e => and_congr_left' h.mem_iff)

end Request

/-- A `decode_fields` that makes the requests in this order and takes note of what it has not asked
for. -/
def decodeRequests : List (Request V) →
    Act FieldDecoder Error (List (Option V) × List UnknownField)
  | [] => do
      let decoder ← get
      pure ([], decoder.unknownFields)
  | request :: requests => do
      let value ← request.call
      let (values, unknown) ← decodeRequests requests
      pure (value :: values, unknown)

/-- No field of the frame is asked for twice. -/
def AskedOnce (requests : List (Request V)) (es : List EncodedField) : Prop :=
  requests.Pairwise fun r s => r.id = s.id → r.Absent es

instance (requests : List (Request V)) (es : List EncodedField) :
    Decidable (AskedOnce requests es) :=
  inferInstanceAs (Decidable (requests.Pairwise fun r s => r.id = s.id → r.Absent es))

variable {base : Config} {es : List EncodedField}

/-- What a decoding gets that starts with the fields `ids` asked for. -/
lemma decodeRequests_eq_ok (hes : Increasing es) {requests : List (Request V)}
    {ids : List UInt32} {values : List (Option V)} {unknown : List UnknownField} :
    (decodeRequests requests ⟨base, asked ids es⟩).1 = .ok (values, unknown) ↔
      (∀ request ∈ requests, request.id ∈ ids → request.Absent es) ∧ AskedOnce requests es ∧
        List.Forall₂ (fun request value => request.Answers es value) requests values ∧
        unknown = es.filter fun e => e.id ∉ requests.map Request.id ∧ e.id ∉ ids := by
  induction requests generalizing ids values with
  | nil =>
      rw [decodeRequests, get_bind_run, pure_run, unknownFields_asked]
      simp only [Outcome.ok.injEq, Prod.mk.injEq, List.not_mem_nil, false_imp_iff, implies_true,
        AskedOnce, List.Pairwise.nil, true_and, List.forall₂_nil_left_iff, List.map_nil,
        not_false_eq_true, eq_comm]
  | cons request requests ih =>
      rw [decodeRequests, bind_fst_eq_ok]
      have hfilter : (es.filter fun e => e.id ∉ requests.map Request.id ∧ e.id ∉ request.id :: ids)
          = es.filter fun e => e.id ∉ (request :: requests).map Request.id ∧ e.id ∉ ids := by
        refine List.filter_congr fun e _ => decide_eq_decide.mpr ?_
        simp only [List.map_cons, List.mem_cons, not_or]
        tauto
      constructor
      · rintro ⟨value, t, hcall, hrest⟩
        obtain ⟨hfresh, hanswer, rfl⟩ := (Request.call_eq_ok hes).mp hcall
        obtain ⟨⟨rest, unknown'⟩, u, hrun, hpure⟩ := bind_fst_eq_ok.mp hrest
        cases hpure
        obtain ⟨hids, honce, hall, hunknown⟩ := ih.mp (congrArg Prod.fst hrun)
        refine ⟨List.forall_mem_cons.mpr ⟨hfresh, fun r hr h => hids r hr (.tail _ h)⟩,
          List.pairwise_cons.mpr ⟨fun r hr heq => ?_, honce⟩, .cons hanswer hall,
          hunknown.trans hfilter⟩
        have habsent := hids r hr (heq ▸ List.mem_cons_self)
        rwa [Request.Absent, heq]
      · rintro ⟨hids, honce, hall, hunknown⟩
        obtain ⟨hfresh, hids⟩ := List.forall_mem_cons.mp hids
        obtain ⟨hfirst, honce⟩ := List.pairwise_cons.mp honce
        cases hall with
        | cons hanswer hall =>
            refine ⟨_, _, (Request.call_eq_ok hes).mpr ⟨hfresh, hanswer, rfl⟩, ?_⟩
            have hagain : ∀ r ∈ requests, r.id ∈ request.id :: ids → r.Absent es := by
              intro r hr h
              rcases List.mem_cons.mp h with heq | h
              · have habsent := hfirst r hr heq.symm
                rwa [Request.Absent, heq]
              · exact hids r hr h
            have hrest : (decodeRequests requests ⟨base, asked (request.id :: ids) es⟩).1
                = .ok (_, unknown) := ih.mpr ⟨hagain, honce, hall, hunknown.trans hfilter.symm⟩
            exact bind_fst_eq_ok.mpr ⟨_, _, Prod.ext hrest rfl, rfl⟩

lemma fresh_injective : Function.Injective Field.fresh := by
  intro e f h
  cases e
  cases f
  cases h
  rfl

/-- A frame has one version and one list of fields. -/
lemma parse_frame {reader : Config} {schema : Schema} {es : List EncodedField}
    {input : Slice 1 UInt8} (hes : Increasing es) (hshort : Short es) (hcount : es.length < 2 ^ 32)
    (hinput : input.elems = FieldEncoder.frame schema es) {version : UInt32} {fields : List Field} :
    parse reader schema.id input = .ok (version, fields) ↔
      (∀ limit, reader.limit = some limit → input.elems.length ≤ limit) ∧
      (∀ limit, reader.collectionLimit = some limit → es.length ≤ limit) ∧
      version = schema.version ∧ fields = es.map Field.fresh := by
  constructor
  · intro h
    obtain ⟨hlimit, es', rest, hframed, rfl, hbytes, hend⟩ := parse_eq_ok.mp h
    -- without limits both lists are parsed, so that they are the same
    obtain ⟨free, hfree⟩ : ∃ free : Config,
        free = { reader with limit := none, collectionLimit := none } := ⟨_, rfl⟩
    have hparse : parse free schema.id input = .ok (version, es'.map Field.fresh) := by
      subst hfree
      exact parse_eq_ok.mpr ⟨fun _ h => (nomatch h), es', rest, ⟨hframed.count_lt,
        fun _ h => (nomatch h), hframed.increasing, hframed.short⟩, rfl, hbytes, hend⟩
    have hparse' : parse free schema.id input = .ok (schema.version, es.map Field.fresh) := by
      subst hfree
      exact parse_eq_ok.mpr ⟨fun _ h => (nomatch h), es, [], ⟨hcount, fun _ h => (nomatch h), hes,
        hshort⟩, rfl, by rw [List.append_nil, hinput], fun _ => rfl⟩
    obtain ⟨hversion, hfields⟩ := Prod.mk.inj (Outcome.ok.inj (hparse.symm.trans hparse'))
    obtain rfl := List.map_injective_iff.mpr fresh_injective hfields
    exact ⟨hlimit, hframed.collection_le, hversion, rfl⟩
  · rintro ⟨hlimit, hcollection, rfl, rfl⟩
    exact parse_eq_ok.mpr ⟨hlimit, es, [], ⟨hcount, hcollection, hes, hshort⟩, rfl,
      by rw [List.append_nil, hinput], fun _ => rfl⟩

/-- A field is no longer than its frame. -/
lemma short_of_fits {writer : Config} {es : List EncodedField} (h : Fits writer es) : Short es := by
  intro e he
  have hmem : e.encode.length ≤ (es.flatMap EncodedField.encode).length := by
    rw [List.flatMap]
    exact (List.sublist_flatten_of_mem (List.mem_map_of_mem he)).length_le
  have hle := h.size_le
  rw [length_encode] at hmem
  rw [isizeMax] at hle
  omega

/-- **Readers and writers of different versions.**  A frame has the fields `es`, with distinct
identifiers and added in any order.  A reader of the schema, whatever its version and its limits,
makes its requests and takes note of what it has not asked for.  It succeeds exactly when its limits
admit the frame, no field of the frame is asked for twice, each field that is asked for and is there
decodes, and no field that is required is missing; then the values are those of the fields, where
they are there, and the unknown fields are the others, in the order of their identifiers. -/
theorem deserialize_serialize_iff {writer : Config} {schema : Schema} {es : List EncodedField}
    {input : Slice 1 UInt8} (hids : (es.map EncodedField.id).Nodup)
    (hwrite : serialize writer schema (es.map EncodedField.call) = .ok input.elems)
    (reader : Config) (requests : UInt32 → List (Request V)) (values : List (Option V))
    (unknown : List UnknownField) :
    deserialize reader schema.id input (fun version => decodeRequests (requests version))
        = .ok (values, unknown) ↔
      (∀ limit, reader.limit = some limit → input.elems.length ≤ limit) ∧
      (∀ limit, reader.collectionLimit = some limit → es.length ≤ limit) ∧
      AskedOnce (requests schema.version) es ∧
      List.Forall₂ (fun request value => request.Answers es value)
        (requests schema.version) values ∧
      unknown = (sortByKey es).filter fun e => e.id ∉ (requests schema.version).map Request.id := by
  rw [serialize_call hids] at hwrite
  obtain ⟨hfits, hbytes⟩ := FieldEncoder.finish_eq_ok.mp hwrite
  have hperm := perm_sortByKey es
  have hsorted := sortByKey_increasing hids
  have hanswers : ∀ request : Request V, ∀ value,
      request.Answers (sortByKey es) value ↔ request.Answers es value :=
    fun request value => Request.answers_perm hperm value
  have honce : AskedOnce (requests schema.version) (sortByKey es) ↔
      AskedOnce (requests schema.version) es := by
    rw [AskedOnce, AskedOnce]
    simp only [Request.absent_perm hperm]
  have hdecode : (decodeRequests (requests schema.version) ⟨reader, asked [] (sortByKey es)⟩).1
      = .ok (values, unknown) ↔ _ := decodeRequests_eq_ok hsorted
  simp only [List.not_mem_nil, false_imp_iff, implies_true, true_and, not_false_eq_true, and_true,
    honce, hanswers, asked_nil] at hdecode
  have hparse (version : UInt32) (fields : List Field) :
      parse reader schema.id input = .ok (version, fields) ↔ _ :=
    parse_frame hsorted (short_of_fits hfits) hfits.count_lt hbytes
  rw [hperm.length_eq] at hparse
  rw [deserialize, Outcome.bind_eq_ok]
  constructor
  · rintro ⟨⟨version, fields⟩, hfields, hrun⟩
    obtain ⟨hlimit, hcollection, rfl, rfl⟩ := (hparse _ _).mp hfields
    exact ⟨hlimit, hcollection, hdecode.mp hrun⟩
  · rintro ⟨hlimit, hcollection, hrest⟩
    exact ⟨_, (hparse _ _).mpr ⟨hlimit, hcollection, rfl, rfl⟩, hdecode.mpr hrest⟩

/-- A payload of one byte. -/
def oneByte (payload : List UInt8) : Outcome Error UInt8 :=
  match payload with
  | [byte] => .ok byte
  | _ => .err .unexpectedEnd

/-- The second version has dropped the field 2 of the first one and has added the field 1. -/
theorem deserialize_serialize_iff_versions :
    let schema : Schema := ⟨7, 2⟩
    let es : List EncodedField := [⟨3, [9]⟩, ⟨1, [5]⟩]
    let requests : List (Request UInt8) := [⟨3, .required, 0, oneByte⟩, ⟨2, .orDefault, 4, oneByte⟩]
    ∃ input : Slice 1 UInt8,
      serialize .standard schema (es.map EncodedField.call) = .ok input.elems ∧
        deserialize .standard schema.id input (fun _ => decodeRequests requests)
          = .ok ([some 9, some 4], [⟨1, [5]⟩]) := by
  intro schema es requests
  have hids : (es.map EncodedField.id).Nodup := by decide
  have hwrite : serialize .standard schema (es.map EncodedField.call)
      = .ok (FieldEncoder.frame schema (sortByKey es)) := by decide +kernel
  refine ⟨⟨FieldEncoder.frame schema (sortByKey es), by decide +kernel⟩, hwrite, ?_⟩
  have hthree : (⟨3, .required, 0, oneByte⟩ : Request UInt8).Answers es (some 9) :=
    .inr ⟨⟨3, [9]⟩, .head _, rfl, 9, rfl, rfl⟩
  have htwo : (⟨2, .orDefault, 4, oneByte⟩ : Request UInt8).Answers es (some 4) := by
    refine .inl ⟨?_, rfl⟩
    decide
  refine (deserialize_serialize_iff hids hwrite .standard (fun _ => requests) _ _).mpr
    ⟨by decide +kernel, by decide, ?_, .cons hthree (.cons htwo .nil), by decide +kernel⟩
  decide

end RustBinary.Evolution
