import RustBinary.Evolution.RoundTrip

/-!
# Attempts that fail

A decoding may ask for a field as one type and, when that fails, as another one, or it may leave
the field to be forwarded.  A field is marked as consumed before its payload is decoded, so that an
attempt that fails on the payload spoils the field; every other attempt that fails leaves the
decoder as it was.
-/

namespace RustBinary.Evolution.FieldDecoder

open Lib Lib.Act

/-- The accessors of the decoder. -/
inductive Accessor where
  | required
  | optional
  | orDefault
deriving DecidableEq, Repr

/-- A call of an accessor for a type that has a default and is read by `deserialize`. -/
def Accessor.call {α : Type} (default : α) (deserialize : List UInt8 → Outcome Error α)
    (id : UInt32) : Accessor → Act FieldDecoder Error (Option α)
  | .required => do
      let value ← FieldDecoder.required deserialize id
      pure (some value)
  | .optional => FieldDecoder.optional deserialize id
  | .orDefault => do
      let value ← FieldDecoder.orDefault default deserialize id
      pure (some value)

/-- The states of a decoding: those of a parsed frame, and what calls make of them, whatever the
calls come back with. -/
inductive State (base : Config) : FieldDecoder → Prop
  | parsed {schemaId : UInt64} {input : Slice 1 UInt8} {version : UInt32} {fields : List Field}
      (h : parse base schemaId input = .ok (version, fields)) : State base ⟨base, fields⟩
  | called {α : Type} {default : α} {deserialize : List UInt8 → Outcome Error α} {id : UInt32}
      {a : Accessor} {d u : FieldDecoder} {outcome : Outcome Error (Option α)}
      (hd : State base d) (h : a.call default deserialize id d = (outcome, u)) : State base u

/-- The field `id` has been consumed. -/
def Consumed (d : FieldDecoder) (id : UInt32) : Prop :=
  ∃ field ∈ d.fields, field.id = id ∧ field.consumed = true

/-- An error of `m` leaves the consumed fields as they are. -/
def KeepsOnError {α : Type} (m : Act FieldDecoder Error α) (d : FieldDecoder) : Prop :=
  ∀ e u, m d = (.err e, u) → ∀ id, u.Consumed id ↔ d.Consumed id

/-- The field `id` is there to be decoded, and its payload is not that of the type. -/
def Spoils {α : Type} (deserialize : List UInt8 → Outcome Error α) (id : UInt32)
    (d : FieldDecoder) : Prop :=
  ∃ field ∈ d.fields, field.id = id ∧ field.consumed = false ∧
    ∃ e, deserialize field.payload = .err e

/-- A decoding with attempts that fail and spoil nothing; `ids` are the fields that it has asked
for with success, the last one first. -/
inductive Run : FieldDecoder → List UInt32 → FieldDecoder → Prop
  | none (d : FieldDecoder) : Run d [] d
  | ok {α : Type} {default : α} {deserialize : List UInt8 → Outcome Error α} {id : UInt32}
      {a : Accessor} {d t u : FieldDecoder} {ids : List UInt32} {value : Option α}
      (hrun : Run d ids t) (h : a.call default deserialize id t = (.ok value, u)) :
      Run d (id :: ids) u
  | err {α : Type} {default : α} {deserialize : List UInt8 → Outcome Error α} {id : UInt32}
      {a : Accessor} {d t u : FieldDecoder} {ids : List UInt32} {e : Error}
      (hrun : Run d ids t) (hspoils : ¬ t.Spoils deserialize id)
      (h : a.call default deserialize id t = (.err e, u)) : Run d ids u

/-! ## One call -/

section Call

variable {α : Type} {base : Config} {ids : List UInt32} {es : List EncodedField} {id : UInt32}
  {default : α} {deserialize : List UInt8 → Outcome Error α}

lemma consumed_asked {i : UInt32} :
    Consumed ⟨base, asked ids es⟩ i ↔ i ∈ ids ∧ ∃ e ∈ es, e.id = i := by
  simp only [Consumed, asked, List.mem_map]
  constructor
  · rintro ⟨_, ⟨e, he, rfl⟩, rfl, hconsumed⟩
    exact ⟨of_decide_eq_true hconsumed, e, he, rfl⟩
  · rintro ⟨hi, e, he, rfl⟩
    exact ⟨_, ⟨e, he, rfl⟩, rfl, decide_eq_true hi⟩

lemma spoils_asked : Spoils deserialize id ⟨base, asked ids es⟩ ↔
    id ∉ ids ∧ ∃ field ∈ es, field.id = id ∧ ∃ e, deserialize field.payload = .err e := by
  simp only [Spoils, asked, List.mem_map]
  constructor
  · rintro ⟨_, ⟨field, hfield, rfl⟩, rfl, hconsumed, herr⟩
    exact ⟨of_decide_eq_false hconsumed, field, hfield, rfl, herr⟩
  · rintro ⟨hid, field, hfield, rfl, herr⟩
    exact ⟨_, ⟨field, hfield, rfl⟩, rfl, decide_eq_false hid, herr⟩

/-- What comes back from `optional`, other than the absence of the field, comes back from every
accessor. -/
lemma call_of_optional {d u : FieldDecoder} {outcome : Outcome Error (Option α)}
    (h : FieldDecoder.optional deserialize id d = (outcome, u)) (hne : outcome ≠ .ok none)
    (a : Accessor) : a.call default deserialize id d = (outcome, u) := by
  have hrequired : FieldDecoder.required deserialize id d =
      (outcome >>= fun value => Outcome.okOr value (.schemaEvolution "required field is missing"),
        u) := by
    rw [FieldDecoder.required, bind_run, h]
    rcases outcome with (_ | value) | e | _ | _ <;> rfl
  have hdefault : FieldDecoder.orDefault default deserialize id d =
      (outcome >>= fun value => pure (value.getD default), u) := by
    rw [FieldDecoder.orDefault, bind_run, h]
    cases outcome <;> rfl
  cases a with
  | required =>
      rw [Accessor.call, bind_run, hrequired]
      rcases outcome with (_ | value) | e | _ | _
      · exact absurd rfl hne
      all_goals rfl
  | optional => exact h
  | orDefault =>
      rw [Accessor.call, bind_run, hdefault]
      rcases outcome with (_ | value) | e | _ | _
      · exact absurd rfl hne
      all_goals rfl

/-- The absence of the field changes nothing. -/
lemma call_of_absent {d u : FieldDecoder}
    (h : FieldDecoder.optional deserialize id d = (.ok none, u)) (a : Accessor) :
    (a.call default deserialize id d).2 = u := by
  cases a with
  | required => rw [Accessor.call, FieldDecoder.required, bind_run, bind_run, h]; rfl
  | optional => exact congrArg Prod.snd h
  | orDefault => rw [Accessor.call, FieldDecoder.orDefault, bind_run, bind_run, h]; rfl

variable (base ids default deserialize id) in
/-- What a call does: nothing when the field is absent or has been consumed; else the field is
marked and then decoded. -/
lemma call_cases (hes : Increasing es) (a : Accessor) :
    ((id ∈ ids ∨ ∀ e ∈ es, e.id ≠ id) ∧
      (a.call default deserialize id ⟨base, asked ids es⟩).2 = ⟨base, asked ids es⟩) ∨
    ∃ e ∈ es, e.id = id ∧ id ∉ ids ∧ a.call default deserialize id ⟨base, asked ids es⟩ =
      (deserialize e.payload >>= fun value => pure (some value),
        ⟨base, asked (id :: ids) es⟩) := by
  rcases optional_run base ids deserialize id hes with
    ⟨habsent, h⟩ | ⟨e, he, hid, ⟨hids, h⟩ | ⟨hids, h⟩⟩
  · exact .inl ⟨.inr habsent, call_of_absent h a⟩
  · exact .inl ⟨.inl hids, by rw [call_of_optional h (by simp) a]⟩
  · refine .inr ⟨e, he, hid, hids, call_of_optional h ?_ a⟩
    intro hnone
    obtain ⟨value, -, hpure⟩ := Outcome.bind_eq_ok.mp hnone
    cases hpure

lemma asked_cons_of_still (h : id ∈ ids ∨ ∀ e ∈ es, e.id ≠ id) :
    asked (id :: ids) es = asked ids es := by
  rcases h with hid | habsent
  · exact asked_cons_of_mem hid
  · exact asked_cons_of_absent habsent

/-- Without a payload that is not of the type, an error leaves the decoder as it was. -/
lemma call_err (hes : Increasing es) {a : Accessor} {e : Error} {u : FieldDecoder}
    (hspoils : ¬ Spoils deserialize id ⟨base, asked ids es⟩)
    (h : a.call default deserialize id ⟨base, asked ids es⟩ = (.err e, u)) :
    u = ⟨base, asked ids es⟩ := by
  rcases call_cases base ids id default deserialize hes a with ⟨-, h'⟩ | ⟨field, hfield, hid, hids, h'⟩
  · rw [← h', h]
  · have houtcome := congrArg Prod.fst (h'.symm.trans h)
    cases hpayload : deserialize field.payload with
    | err e => exact absurd (spoils_asked.mpr ⟨hids, field, hfield, hid, e, hpayload⟩) hspoils
    | ok value => rw [hpayload] at houtcome; cases houtcome
    | panic => rw [hpayload] at houtcome; cases houtcome
    | diverge => rw [hpayload] at houtcome; cases houtcome

/-- What a call leaves behind, whatever it comes back with. -/
lemma call_kept (hes : Increasing es) {a : Accessor} {outcome : Outcome Error (Option α)}
    {u : FieldDecoder} (h : a.call default deserialize id ⟨base, asked ids es⟩ = (outcome, u)) :
    u = ⟨base, asked ids es⟩ ∨ u = ⟨base, asked (id :: ids) es⟩ := by
  rcases call_cases base ids id default deserialize hes a with ⟨-, h'⟩ | ⟨_, -, -, -, h'⟩
  · exact .inl (by rw [← h', h])
  · exact .inr (congrArg Prod.snd (h.symm.trans h'))

/-- A call with success marks its field, if it is there. -/
lemma call_ok (hes : Increasing es) {a : Accessor} {value : Option α} {u : FieldDecoder}
    (h : a.call default deserialize id ⟨base, asked ids es⟩ = (.ok value, u)) :
    u = ⟨base, asked (id :: ids) es⟩ := by
  rcases call_cases base ids id default deserialize hes a with ⟨hstill, h'⟩ | ⟨_, -, -, -, h'⟩
  · rw [asked_cons_of_still hstill, ← h', h]
  · exact congrArg Prod.snd (h.symm.trans h')

end Call

/-! ## Every decoding -/

variable {base : Config}

lemma State.asked_of {d : FieldDecoder} (h : State base d) :
    ∃ ids es, Increasing es ∧ d = ⟨base, asked ids es⟩ := by
  induction h with
  | parsed h =>
      obtain ⟨-, es, -, hes, rfl, -, -⟩ := parse_eq_ok.mp h
      exact ⟨[], es, hes.increasing, by rw [asked_nil]⟩
  | called _ h ih =>
      obtain ⟨ids, es, hes, rfl⟩ := ih
      rcases call_kept hes h with rfl | rfl
      · exact ⟨ids, es, hes, rfl⟩
      · exact ⟨_, es, hes, rfl⟩

lemma Run.fields_eq {es : List EncodedField} {ids : List UInt32} {d u : FieldDecoder}
    (hes : Increasing es) (h : Run d ids u) (hd : d = ⟨base, es.map Field.fresh⟩) :
    u = ⟨base, asked ids es⟩ := by
  induction h with
  | none d => rw [hd, asked_nil]
  | ok _ hcall ih =>
      rw [ih hd] at hcall
      exact call_ok hes hcall
  | err _ hspoils hcall ih =>
      rw [ih hd] at hspoils hcall
      exact call_err hes hspoils hcall

/-- Errors and the consumed fields: in every state of a decoding, an error of an accessor leaves
the consumed fields as they are exactly when the field is not one whose payload is there to be
decoded and fails to; and after any attempts of which those that failed were of that kind, the
consumed fields are the ones that were asked for with success, the others can be decoded as any
type, and they are forwarded. -/
theorem errors_keep_consumed_iff (base : Config) :
    (∀ d : FieldDecoder, State base d → ∀ (α : Type) (default : α)
      (deserialize : List UInt8 → Outcome Error α) (id : UInt32) (a : Accessor),
      KeepsOnError (a.call default deserialize id) d ↔ ¬ d.Spoils deserialize id) ∧
    (∀ (schemaId : UInt64) (input : Slice 1 UInt8) (version : UInt32) (fields : List Field)
      (ids : List UInt32) (d : FieldDecoder), parse base schemaId input = .ok (version, fields) →
      Run ⟨base, fields⟩ ids d →
      (∀ id, d.Consumed id ↔ id ∈ ids ∧ ∃ field ∈ fields, field.id = id) ∧
        (∀ field ∈ fields, field.id ∉ ids →
          ∀ (α : Type) (deserialize : List UInt8 → Outcome Error α),
            (FieldDecoder.optional deserialize field.id d).1 =
              deserialize field.payload >>= fun value => pure (some value)) ∧
        d.unknownFields = (fields.map Field.encoded).filter (·.id ∉ ids)) := by
  refine ⟨fun d hd α default deserialize id a => ?_, fun schemaId input version fields ids d hparse
    hrun => ?_⟩
  · obtain ⟨ids, es, hes, rfl⟩ := hd.asked_of
    constructor
    · intro hkeeps hspoils
      obtain ⟨hids, field, hfield, hid, e, herr⟩ := spoils_asked.mp hspoils
      have hcases := call_cases base ids id default deserialize hes a
      rcases hcases with ⟨hid' | habsent, -⟩ | ⟨field', hfield', hid', -, h⟩
      · exact hids hid'
      · exact habsent field hfield hid
      · obtain rfl : field' = field := hes.eq_of_id hfield' hfield (hid'.trans hid.symm)
        rw [herr] at h
        -- the field is consumed now, and it was not
        have hconsumed := (hkeeps _ _ h id).mp (consumed_asked.mpr
          ⟨List.mem_cons_self, field', hfield, hid⟩)
        exact hids (consumed_asked.mp hconsumed).1
    · intro hspoils e u h i
      rw [call_err hes hspoils h]
  · obtain ⟨-, es, -, hes, rfl, -, -⟩ := parse_eq_ok.mp hparse
    obtain rfl := hrun.fields_eq hes.increasing rfl
    refine ⟨fun id => ?_, fun field hfield hids α deserialize => ?_, ?_⟩
    · rw [consumed_asked]
      simp [Field.fresh]
    · obtain ⟨e, he, rfl⟩ := List.mem_map.mp hfield
      rcases optional_run base ids deserialize e.id hes.increasing with
        ⟨habsent, -⟩ | ⟨e', he', hid, ⟨hids', -⟩ | ⟨-, h⟩⟩
      · exact absurd rfl (habsent e he)
      · exact absurd hids' hids
      · obtain rfl := hes.increasing.eq_of_id he' he hid
        rw [show (Field.fresh e').id = e'.id from rfl, h]
        rfl
    · rw [unknownFields_asked, List.map_map]
      congr 1
      exact (List.map_id es).symm

/-- The frame of a field without bytes. -/
def emptyField : EncodedField := ⟨7, []⟩

lemma parse_emptyField (h : 1 * (FieldEncoder.frame ⟨0, 0⟩ [emptyField]).length ≤ isizeMax) :
    parse Config.standard 0 ⟨FieldEncoder.frame ⟨0, 0⟩ [emptyField], h⟩ =
      .ok (0, [emptyField].map Field.fresh) := by
  refine parse_eq_ok.mpr ⟨?_, [emptyField], [], ⟨?_, ?_, ?_, ?_⟩, rfl, (List.append_nil _).symm,
    fun _ => rfl⟩
  · intro limit hlimit
    have hlen : (FieldEncoder.frame ⟨0, 0⟩ [emptyField]).length = 36 := by decide
    cases hlimit
    rw [hlen]
    decide
  · decide
  · intro limit hlimit
    cases hlimit
    decide
  · exact List.pairwise_singleton _ _
  · intro field hfield
    obtain rfl := List.mem_singleton.mp hfield
    decide

/-- A field without bytes is spoiled by an attempt to decode a byte. -/
theorem emptyField_spoiled : ¬ ∀ (base : Config) (d : FieldDecoder), State base d →
    ∀ (α : Type) (default : α) (deserialize : List UInt8 → Outcome Error α) (id : UInt32)
      (a : Accessor), KeepsOnError (a.call default deserialize id) d := by
  intro h
  have hsize : 1 * (FieldEncoder.frame ⟨0, 0⟩ [emptyField]).length ≤ isizeMax := by decide
  have hkeeps := h Config.standard _ (.parsed (parse_emptyField hsize)) UInt8 0
    (fun payload => Outcome.okOr payload.head? .unexpectedEnd) 7 .optional
  have hconsumed := (hkeeps .unexpectedEnd ⟨Config.standard, [⟨7, [], true⟩]⟩ rfl 7).mp
    ⟨⟨7, [], true⟩, List.mem_singleton_self _, rfl, rfl⟩
  obtain ⟨field, hfield, -, htrue⟩ := hconsumed
  obtain rfl := List.mem_singleton.mp hfield
  cases htrue

end RustBinary.Evolution.FieldDecoder
