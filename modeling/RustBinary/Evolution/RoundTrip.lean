import RustBinary.Evolution.Frame

/-!
# Frames and their fields

What the parser accepts is the frame of the fields that it exposes, and what the builder writes
is the frame of its fields in increasing order, whatever the order in which they came.  The fields
that a decoding has not asked for stay visible.
-/

namespace RustBinary.Evolution

open Lib Lib.Act Cursor

/-! ## Reading -/

/-- A field as it comes out of the parser. -/
def Field.fresh (field : EncodedField) : Field := ⟨field.id, field.payload, false⟩

/-- A field without its state. -/
def Field.encoded (field : Field) : EncodedField := ⟨field.id, field.payload⟩

/-- The identifiers increase. -/
def Increasing (fields : List EncodedField) : Prop :=
  fields.Pairwise fun f g => f.id.toNat < g.id.toNat

/-- The identifiers increase, from `previous` on. -/
def After (previous : Option UInt32) (fields : List EncodedField) : Prop :=
  (∀ field ∈ fields, Follows previous field.id) ∧ Increasing fields

lemma after_cons {previous : Option UInt32} {field : EncodedField} {fields : List EncodedField} :
    After previous (field :: fields) ↔ Follows previous field.id ∧ After (some field.id) fields := by
  simp only [After, Increasing, List.forall_mem_cons, List.pairwise_cons]
  constructor
  · rintro ⟨⟨hfirst, -⟩, hlt, hrest⟩
    refine ⟨hfirst, fun g hg last hlast => ?_, hrest⟩
    cases hlast
    exact hlt g hg
  · rintro ⟨hfirst, hlt, hrest⟩
    refine ⟨⟨hfirst, fun g hg last hlast => ?_⟩, fun g hg => hlt g hg _ rfl, hrest⟩
    exact (hfirst last hlast).trans (hlt g hg _ rfl)

/-- The lengths of the payloads fit into their words. -/
def Short (fields : List EncodedField) : Prop := ∀ field ∈ fields, field.payload.length < 2 ^ 64

lemma spells_field (previous : Option UInt32) :
    Spells Always (parseField previous) fun field bs => ∃ e : EncodedField,
      Follows previous e.id ∧ e.payload.length < 2 ^ 64 ∧ field = .fresh e ∧ bs = e.encode := by
  refine (((spells_number 4).map UInt32.ofNat).bind steady_always fun id =>
    (Spells.call _).bind steady_always fun _ => (spells_number 8).bind steady_always fun length =>
    (spells_take length).bind steady_always fun payload => Spells.pure _).congr fun field bs => ?_
  constructor
  · rintro ⟨_, _, _, ⟨word, ⟨hword, rfl⟩, rfl⟩, ⟨_, _, _, ⟨hfollows, rfl⟩, ⟨_, _, _,
      ⟨hlength, rfl⟩, ⟨payload, _, _, ⟨rfl, rfl⟩, ⟨rfl, rfl⟩, rfl⟩, rfl⟩, rfl⟩, rfl⟩
    have hword : (UInt32.ofNat word).toNat = word := UInt32.toNat_ofNat_of_lt hword
    refine ⟨⟨UInt32.ofNat word, payload⟩, Outcome.require_eq_ok.mp hfollows, hlength, rfl, ?_⟩
    simp [EncodedField.encode, hword]
  · rintro ⟨e, hfollows, hlength, rfl, rfl⟩
    refine ⟨e.id, _, _, ⟨e.id.toNat, ⟨e.id.toNat_lt, rfl⟩, ?_⟩, ⟨(), _, _,
      ⟨Outcome.require_of hfollows, rfl⟩, ⟨e.payload.length, _, _, ⟨hlength, rfl⟩,
        ⟨e.payload, _, _, ⟨rfl, rfl⟩, ⟨rfl, rfl⟩, rfl⟩, rfl⟩, rfl⟩, ?_⟩
    · simp
    · simp [EncodedField.encode]

lemma spells_fields (count : ℕ) (previous : Option UInt32) :
    Spells Always (parseFields count previous) fun fields bs => ∃ es : List EncodedField,
      es.length = count ∧ After previous es ∧ Short es ∧ fields = es.map Field.fresh ∧
        bs = es.flatMap EncodedField.encode := by
  induction count generalizing previous with
  | zero =>
      refine (Spells.pure []).congr fun fields bs => ?_
      constructor
      · rintro ⟨rfl, rfl⟩
        exact ⟨[], rfl, ⟨by simp, .nil⟩, by simp [Short], rfl, rfl⟩
      · rintro ⟨es, hlen, -, -, rfl, rfl⟩
        rw [List.length_eq_zero_iff] at hlen
        subst hlen
        exact ⟨rfl, rfl⟩
  | succ count ih =>
      refine ((spells_field previous).bind steady_always fun field =>
        (ih (some field.id)).bind steady_always fun rest => Spells.pure _).congr fun fields bs => ?_
      constructor
      · rintro ⟨_, _, _, ⟨e, hfollows, hlength, rfl, rfl⟩, ⟨_, _, _, ⟨es, rfl, hafter, hshort, rfl,
          rfl⟩, ⟨rfl, rfl⟩, rfl⟩, rfl⟩
        refine ⟨e :: es, rfl, after_cons.mpr ⟨hfollows, hafter⟩,
          List.forall_mem_cons.mpr ⟨hlength, hshort⟩, rfl, ?_⟩
        simp
      · rintro ⟨es, hlen, hafter, hshort, rfl, rfl⟩
        cases es with
        | nil => cases hlen
        | cons e es =>
            obtain ⟨hfollows, hafter⟩ := after_cons.mp hafter
            obtain ⟨hlength, hshort⟩ := List.forall_mem_cons.mp hshort
            refine ⟨.fresh e, _, _, ⟨e, hfollows, hlength, rfl, rfl⟩, ⟨es.map Field.fresh, _, _,
              ⟨es, Nat.succ.inj hlen, hafter, hshort, rfl, rfl⟩, ⟨rfl, rfl⟩, rfl⟩, ?_⟩
            simp

lemma length_encode (field : EncodedField) :
    field.encode.length = fieldHeaderSize + field.payload.length := by
  simp only [EncodedField.encode, List.length_append, length_leBytes, fieldHeaderSize]
  omega

lemma headers_le (es : List EncodedField) :
    es.length * fieldHeaderSize ≤ (es.flatMap EncodedField.encode).length := by
  induction es with
  | nil => simp
  | cons e es ih =>
      rw [List.flatMap_cons, List.length_append, List.length_cons, length_encode, Nat.succ_mul]
      omega

/-- The check of the headers in front of the loop turns no frame away. -/
lemma spells_table (count : ℕ) :
    Spells Always (parseTable count) fun fields bs => ∃ es : List EncodedField,
      es.length = count ∧ Increasing es ∧ Short es ∧ fields = es.map Field.fresh ∧
        bs = es.flatMap EncodedField.encode := by
  intro s hs hhere fields t
  have hafter : ∀ es, After none es ↔ Increasing es := by
    intro es
    exact ⟨fun h => h.2, fun h => ⟨fun _ _ _ hnone => (nomatch hnone), h⟩⟩
  have hloop := spells_fields count none s hs hhere fields t
  simp only [hafter] at hloop
  have hend : ∀ es : List EncodedField, es.length = count →
      Tape.Here s (es.flatMap EncodedField.encode) → count * fieldHeaderSize ≤ s.remaining := by
    rintro es rfl hwindow
    have hend := (slice_eq_some.mp hwindow.1).2.1
    have hle := headers_le es
    rw [remaining]
    omega
  have hremaining : s.remaining ≤ u64Max := by
    have hinput := s.input.length_le
    rw [isizeMax] at hinput
    rw [remaining, u64Max]
    omega
  by_cases hroom : count * fieldHeaderSize ≤ s.remaining
  · have hmul : checkedMul count fieldHeaderSize = some (count * fieldHeaderSize) :=
      if_pos (hroom.trans hremaining)
    rw [parseTable, hmul, okOr_some, pure_bind_run, get_bind_run, Outcome.require_of hroom]
    exact hloop
  · constructor
    · intro h
      rw [parseTable, bind_eq_ok] at h
      obtain ⟨minimum, u, hmul, h⟩ := h
      obtain ⟨hminimum, rfl⟩ := okOr_eq_ok.mp hmul
      rw [checkedMul, Option.ite_none_right_eq_some, Option.some.injEq] at hminimum
      obtain ⟨-, rfl⟩ := hminimum
      rw [get_bind_run, Outcome.require, if_neg hroom] at h
      cases h
    · rintro ⟨_, ⟨es, hlen, -, -, -, rfl⟩, hwindow, -⟩
      exact absurd (hend es hlen hwindow) hroom

lemma spells_header (schemaId : UInt64) :
    Spells Always (parseHeader schemaId) fun parsed bs => parsed.2 < 2 ^ 32 ∧
      bs = magic ++ (leBytes 2 formatVersion ++ (leBytes 2 0 ++ (leBytes 8 schemaId.toNat ++
        (leBytes 4 parsed.1.toNat ++ leBytes 4 parsed.2)))) := by
  refine ((spells_take 4).bind steady_always fun start => (Spells.require _ _).bind steady_always fun _ =>
    (spells_number 2).bind steady_always fun format => (Spells.require _ _).bind steady_always fun _ =>
    (spells_number 2).bind steady_always fun flags => (Spells.require _ _).bind steady_always fun _ =>
    (spells_number 8).bind steady_always fun actual => (Spells.require _ _).bind steady_always fun _ =>
    (spells_number 4).bind steady_always fun version =>
    (spells_number 4).bind steady_always fun count => Spells.pure _).congr fun parsed bs => ?_
  constructor
  · rintro ⟨_, _, _, ⟨rfl, -⟩, ⟨_, _, _, ⟨rfl, rfl⟩, ⟨_, _, _, ⟨-, rfl⟩, ⟨_, _, _, ⟨rfl, rfl⟩,
      ⟨_, _, _, ⟨-, rfl⟩, ⟨_, _, _, ⟨rfl, rfl⟩, ⟨_, _, _, ⟨-, rfl⟩, ⟨_, _, _, ⟨rfl, rfl⟩,
      ⟨version, _, _, ⟨hversion, rfl⟩, ⟨count, _, _, ⟨hcount, rfl⟩, ⟨rfl, rfl⟩, rfl⟩, rfl⟩, rfl⟩,
      rfl⟩, rfl⟩, rfl⟩, rfl⟩, rfl⟩, rfl⟩, rfl⟩
    have hword : (UInt32.ofNat version).toNat = version := UInt32.toNat_ofNat_of_lt hversion
    refine ⟨hcount, ?_⟩
    simp [hword]
  · rintro ⟨hcount, rfl⟩
    refine ⟨magic, _, _, ⟨rfl, rfl⟩, ⟨(), _, _, ⟨rfl, rfl⟩, ⟨formatVersion, _, _, ⟨by decide, rfl⟩,
      ⟨(), _, _, ⟨rfl, rfl⟩, ⟨0, _, _, ⟨by decide, rfl⟩, ⟨(), _, _, ⟨rfl, rfl⟩,
        ⟨schemaId.toNat, _, _, ⟨schemaId.toNat_lt, rfl⟩, ⟨(), _, _, ⟨rfl, rfl⟩,
          ⟨parsed.1.toNat, _, _, ⟨parsed.1.toNat_lt, rfl⟩,
            ⟨parsed.2, _, _, ⟨hcount, rfl⟩, ⟨?_, rfl⟩, rfl⟩, rfl⟩, rfl⟩, rfl⟩, rfl⟩, rfl⟩, rfl⟩,
      rfl⟩, rfl⟩, ?_⟩
    · simp
    · simp

/-- What the parser asks of the fields. -/
structure Framed (base : Config) (es : List EncodedField) : Prop where
  count_lt : es.length < 2 ^ 32
  collection_le : ∀ limit, base.collectionLimit = some limit → es.length ≤ limit
  increasing : Increasing es
  short : Short es

lemma spells_frame (base : Config) (schemaId : UInt64) :
    Spells Always (parseFrame base schemaId) fun parsed bs => ∃ es : List EncodedField,
      Framed base es ∧ parsed.2 = es.map Field.fresh ∧
        bs = FieldEncoder.frame ⟨schemaId, parsed.1⟩ es := by
  refine ((spells_header schemaId).bind steady_always fun header =>
    (Spells.atMost _ _ _).bind steady_always fun _ =>
    (spells_table header.2).bind steady_always fun fields => Spells.pure _).congr
    fun parsed bs => ?_
  constructor
  · rintro ⟨⟨version, count⟩, _, _, ⟨hcount, rfl⟩, ⟨_, _, _, ⟨hle, rfl⟩, ⟨_, _, _,
      ⟨es, rfl, hincreasing, hshort, rfl, rfl⟩, ⟨rfl, rfl⟩, rfl⟩, rfl⟩, rfl⟩
    refine ⟨es, ⟨hcount, hle, hincreasing, hshort⟩, rfl, ?_⟩
    simp [FieldEncoder.frame]
  · obtain ⟨version, fields⟩ := parsed
    rintro ⟨es, hes, rfl, rfl⟩
    refine ⟨(version, es.length), _, _, ⟨hes.count_lt, rfl⟩, ⟨(), _, _, ⟨hes.collection_le, rfl⟩,
      ⟨es.map Field.fresh, _, _, ⟨es, rfl, hes.increasing, hes.short, rfl, rfl⟩, ⟨rfl, rfl⟩, rfl⟩,
      rfl⟩, ?_⟩
    simp [FieldEncoder.frame]

/-- The parser accepts the frames of fields in increasing order, within the limits. -/
lemma parse_eq_ok {base : Config} {schemaId : UInt64} {input : Slice 1 UInt8} {version : UInt32}
    {fields : List Field} :
    parse base schemaId input = .ok (version, fields) ↔
      (∀ limit, base.limit = some limit → input.elems.length ≤ limit) ∧
        ∃ (es : List EncodedField) (rest : List UInt8), Framed base es ∧
          fields = es.map Field.fresh ∧
          input.elems = FieldEncoder.frame ⟨schemaId, version⟩ es ++ rest ∧
          (base.trailing = .reject → rest = []) := by
  rw [parse, Outcome.bind_eq_ok]
  simp only [Config.enforceByteLimit_eq_ok, exists_const, whole_eq_ok (spells_frame base schemaId)]
  refine and_congr_right fun _ => ?_
  constructor
  · rintro ⟨_, rest, ⟨es, hes, rfl, rfl⟩, hinput, hend⟩
    exact ⟨es, rest, hes, rfl, hinput, hend⟩
  · rintro ⟨es, rest, hes, rfl, hinput, hend⟩
    exact ⟨_, rest, ⟨es, hes, rfl, rfl⟩, hinput, hend⟩

/-! ## Writing -/

/-- The call of `field` that adds a field. -/
def EncodedField.call (e : EncodedField) : UInt32 × Outcome Error (List UInt8) :=
  (e.id, .ok e.payload)

namespace FieldEncoder

lemma requiredSize_eq_some {required size : ℕ} {es : List EncodedField} (h : required ≤ u64Max) :
    requiredSize required es = some size ↔
      size = required + (es.flatMap EncodedField.encode).length ∧ size ≤ u64Max := by
  induction es generalizing required with
  | nil =>
      simp only [requiredSize, Option.some.injEq, List.flatMap_nil, List.length_nil]
      omega
  | cons e es ih =>
      rw [requiredSize, List.flatMap_cons, List.length_append, length_encode]
      constructor
      · intro h
        obtain ⟨first, hfirst, h⟩ := Option.bind_eq_some_iff.mp h
        obtain ⟨second, hsecond, h⟩ := Option.bind_eq_some_iff.mp h
        rw [checkedAdd, Option.ite_none_right_eq_some, Option.some.injEq] at hfirst hsecond
        obtain ⟨rfl, hle⟩ := (ih (by omega)).mp h
        omega
      · rintro ⟨rfl, hle⟩
        rw [checkedAdd, if_pos (by omega), Option.bind_eq_bind, Option.bind_some, checkedAdd,
          if_pos (by omega), Option.bind_some]
        exact (ih (by omega)).mpr ⟨by omega, hle⟩

lemma length_frame (schema : Schema) (es : List EncodedField) :
    (frame schema es).length = headerSize + (es.flatMap EncodedField.encode).length := by
  simp only [frame, List.length_append, length_leBytes, headerSize]
  rw [show magic.length = 4 from rfl]
  omega

/-- The limits of a frame with the fields `es`. -/
structure Fits (base : Config) (es : List EncodedField) : Prop where
  count_lt : es.length < 2 ^ 32
  collection_le : ∀ limit, base.collectionLimit = some limit → es.length ≤ limit
  size_le : headerSize + (es.flatMap EncodedField.encode).length ≤ isizeMax
  limit_le : ∀ limit, base.limit = some limit →
    headerSize + (es.flatMap EncodedField.encode).length ≤ limit

lemma enforceCollectionLimit_eq_ok {c : Config} {length : ℕ} {u : Unit} :
    enforceCollectionLimit c length = .ok u ↔
      ∀ limit, c.collectionLimit = some limit → length ≤ limit := by
  rw [enforceCollectionLimit]
  cases c.collectionLimit with
  | none => simp
  | some limit =>
      by_cases h : limit < length
      · simp [h]
      · simp [h, not_lt.mp h]

/-- The builder writes the frame of its sorted fields, if it fits. -/
lemma finish_eq_ok {schema : Schema} {base : Config} {es : List EncodedField} {bytes : List UInt8} :
    finish schema ⟨base, es⟩ = .ok bytes ↔
      Fits base (sortByKey es) ∧ bytes = frame schema (sortByKey es) := by
  have hheader : headerSize ≤ u64Max := by
    rw [headerSize, u64Max]
    omega
  rw [finish]
  simp only [Outcome.bind_eq_ok, enforceCollectionLimit_eq_ok, exists_const, Outcome.okOr_eq_ok,
    requiredSize_eq_some hheader, Config.enforceByteLimit_eq_ok, Outcome.require_eq_ok,
    Outcome.pure_eq_ok, Outcome.ok.injEq]
  constructor
  · rintro ⟨hcollection, _, ⟨rfl, -⟩, hlimit, hcount, hsize, rfl⟩
    exact ⟨⟨hcount, hcollection, hsize, hlimit⟩, rfl⟩
  · rintro ⟨h, rfl⟩
    have hsize := h.size_le
    rw [isizeMax] at hsize
    refine ⟨h.collection_le, _, ⟨rfl, ?_⟩, h.limit_le, h.count_lt, h.size_le, rfl⟩
    rw [u64Max]
    omega

/-- Calls with distinct identifiers add their fields, one after the other. -/
lemma encodeFields_call {es : List EncodedField} {encoder : FieldEncoder}
    (hids : ((encoder.fields ++ es).map EncodedField.id).Nodup) :
    encodeFields (es.map EncodedField.call) encoder =
      (.ok (), { encoder with fields := encoder.fields ++ es }) := by
  induction es generalizing encoder with
  | nil => simp [encodeFields]
  | cons e es ih =>
      have hnew : (encoder.fields.any fun field => field.id = e.id) = false := by
        rw [List.map_append, List.map_cons, List.nodup_append] at hids
        rw [List.any_eq_false]
        intro field hfield heq
        have heq : field.id = e.id := by simpa using heq
        exact hids.2.2 field.id (List.mem_map_of_mem hfield) e.id List.mem_cons_self heq
      have hfield : FieldEncoder.field e.id (.ok e.payload) encoder =
          (.ok (), { encoder with fields := encoder.fields ++ [e] }) := by
        rw [FieldEncoder.field, get_bind_run, hnew]
        rfl
      rw [List.map_cons, EncodedField.call, encodeFields, bind_of_ok hfield, ih (by simpa using hids)]
      simp

lemma serialize_call {base : Config} {schema : Schema} {es : List EncodedField}
    (hids : (es.map EncodedField.id).Nodup) :
    serialize base schema (es.map EncodedField.call) = finish schema ⟨base, es⟩ := by
  rw [serialize, encodeFields_call (by simpa [FieldEncoder.new] using hids)]
  rfl

lemma perm_sortByKey (es : List EncodedField) : (sortByKey es).Perm es :=
  List.perm_insertionSort _ es

/-- Sorting puts distinct identifiers in increasing order. -/
lemma sortByKey_increasing {es : List EncodedField} (hids : (es.map EncodedField.id).Nodup) :
    Increasing (sortByKey es) := by
  have hle : (sortByKey es).Pairwise fun f g => f.id.toNat ≤ g.id.toNat := by
    have : Std.Total fun f g : EncodedField => f.id.toNat ≤ g.id.toNat :=
      ⟨fun f g => Nat.le_total _ _⟩
    have : IsTrans EncodedField fun f g => f.id.toNat ≤ g.id.toNat :=
      ⟨fun f g k => Nat.le_trans⟩
    exact List.pairwise_insertionSort _ es
  have hne : (sortByKey es).Pairwise fun f g => f.id ≠ g.id :=
    List.pairwise_map.mp (((perm_sortByKey es).map EncodedField.id).nodup_iff.mpr hids)
  refine (hle.and hne).imp fun {f g} h => ?_
  exact lt_of_le_of_ne h.1 fun heq => h.2 (UInt32.toNat_inj.mp heq)

lemma sortByKey_eq_self {es : List EncodedField} (h : Increasing es) : sortByKey es = es :=
  List.Pairwise.insertionSort_eq (h.imp fun hlt => Nat.le_of_lt hlt)

end FieldEncoder

lemma Increasing.nodup {es : List EncodedField} (h : Increasing es) :
    (es.map EncodedField.id).Nodup := by
  refine List.pairwise_map.mpr (h.imp fun {f g} hlt heq => ?_)
  rw [heq] at hlt
  exact absurd hlt (Nat.lt_irrefl _)

lemma Increasing.eq_of_id {es : List EncodedField} (h : Increasing es) {e f : EncodedField}
    (he : e ∈ es) (hf : f ∈ es) (hid : e.id = f.id) : e = f :=
  List.inj_on_of_nodup_map h.nodup he hf hid

/-- The same fields in increasing order are the same list. -/
lemma Increasing.eq_of_perm {es fs : List EncodedField} (hes : Increasing es)
    (hfs : Increasing fs) (h : es.Perm fs) : es = fs :=
  h.eq_of_pairwise (fun _ _ _ _ hlt hgt => absurd hlt (Nat.lt_asymm hgt)) hes hfs

/-! ## Asking for fields -/

namespace FieldDecoder

/-- Successful calls that ask for the fields `ids`, the last one first. -/
inductive Calls : FieldDecoder → List UInt32 → FieldDecoder → Prop
  | none (d : FieldDecoder) : Calls d [] d
  | required {α : Type} {deserialize : List UInt8 → Outcome Error α} {d t u : FieldDecoder}
      {ids : List UInt32} {id : UInt32} {value : α} (hcalls : Calls d ids t)
      (h : required deserialize id t = (.ok value, u)) : Calls d (id :: ids) u
  | optional {α : Type} {deserialize : List UInt8 → Outcome Error α} {d t u : FieldDecoder}
      {ids : List UInt32} {id : UInt32} {value : Option α} (hcalls : Calls d ids t)
      (h : optional deserialize id t = (.ok value, u)) : Calls d (id :: ids) u
  | orDefault {α : Type} {default : α} {deserialize : List UInt8 → Outcome Error α}
      {d t u : FieldDecoder} {ids : List UInt32} {id : UInt32} {value : α} (hcalls : Calls d ids t)
      (h : orDefault default deserialize id t = (.ok value, u)) : Calls d (id :: ids) u

/-- The fields `es` when the fields `ids` have been asked for. -/
def asked (ids : List UInt32) (es : List EncodedField) : List Field :=
  es.map fun e => ⟨e.id, e.payload, e.id ∈ ids⟩

lemma asked_nil (es : List EncodedField) : asked [] es = es.map Field.fresh := by
  simp only [asked, List.not_mem_nil, decide_false]
  rfl

variable {base : Config} {ids : List UInt32} {es : List EncodedField} {id : UInt32}

lemma asked_increasing (ids : List UInt32) (hes : Increasing es) :
    (asked ids es).Pairwise fun f g => f.id.toNat < g.id.toNat :=
  List.pairwise_map.mpr hes

/-- Nothing changes when a field is asked for that is not there. -/
lemma asked_cons_of_absent (h : ∀ e ∈ es, e.id ≠ id) : asked (id :: ids) es = asked ids es := by
  refine List.map_congr_left fun e he => ?_
  simp [h e he]

/-- The field at the position that the search finds is the one that changes. -/
lemma asked_cons_of_present (hes : Increasing es) {index : ℕ} {e : EncodedField}
    (he : es[index]? = some e) :
    asked (e.id :: ids) es = (asked ids es).set index ⟨e.id, e.payload, true⟩ := by
  refine List.ext_getElem? fun i => ?_
  rw [List.getElem?_set, asked, asked, List.getElem?_map, List.length_map, List.getElem?_map]
  have hindex : index < es.length := (List.getElem?_eq_some_iff.mp he).1
  by_cases hi : index = i
  · subst hi
    rw [if_pos rfl, if_pos hindex, he]
    simp
  · rw [if_neg hi]
    cases hg : es[i]? with
    | none => rfl
    | some g =>
        -- the identifiers of two places differ
        have hne : g.id ≠ e.id := by
          intro heq
          obtain ⟨hlt, hget⟩ := List.getElem?_eq_some_iff.mp hg
          obtain ⟨hlt', hget'⟩ := List.getElem?_eq_some_iff.mp he
          rcases Nat.lt_or_gt_of_ne hi with h | h
          · have := List.pairwise_iff_getElem.mp hes index i hlt' hlt h
            rw [hget, hget', heq] at this
            exact absurd this (Nat.lt_irrefl _)
          · have := List.pairwise_iff_getElem.mp hes i index hlt hlt' h
            rw [hget, hget', heq] at this
            exact absurd this (Nat.lt_irrefl _)
        simp [hne]

variable (base ids) in
/-- What a call of `optional` does: nothing when the field is absent, an error when it has been
consumed; else the field is marked and then decoded. -/
lemma optional_run {α : Type} (deserialize : List UInt8 → Outcome Error α) (id : UInt32)
    (hes : Increasing es) :
    ((∀ e ∈ es, e.id ≠ id) ∧ FieldDecoder.optional deserialize id ⟨base, asked ids es⟩ =
      (.ok none, ⟨base, asked ids es⟩)) ∨
    ∃ e ∈ es, e.id = id ∧
      (id ∈ ids ∧ FieldDecoder.optional deserialize id ⟨base, asked ids es⟩ =
        (.err (.schemaEvolution "field decoded more than once"), ⟨base, asked ids es⟩) ∨
      id ∉ ids ∧ FieldDecoder.optional deserialize id ⟨base, asked ids es⟩ =
        (deserialize e.payload >>= fun value => pure (some value),
          ⟨base, asked (id :: ids) es⟩)) := by
  have hkeys := asked_increasing ids hes
  rw [FieldDecoder.optional, get_bind_run]
  cases hsearch : binarySearchByKey (fun field : Field => field.id.toNat) (asked ids es)
    id.toNat with
  | none =>
      refine .inl ⟨fun e he heq => ?_, rfl⟩
      have hmem : (⟨e.id, e.payload, e.id ∈ ids⟩ : Field) ∈ asked ids es :=
        List.mem_map_of_mem he
      exact binarySearchByKey_eq_none hkeys hsearch _ hmem (congrArg UInt32.toNat heq)
  | some index =>
      obtain ⟨field, hfield, hid⟩ := (binarySearchByKey_eq_some hkeys).mp hsearch
      have hget := hfield
      rw [asked, List.getElem?_map, Option.map_eq_some_iff] at hget
      obtain ⟨e, he, rfl⟩ := hget
      obtain rfl : e.id = id := UInt32.toNat_inj.mp hid
      refine .inr ⟨e, List.mem_of_getElem? he, rfl, ?_⟩
      simp only [hfield]
      by_cases hconsumed : e.id ∈ ids
      · exact .inl ⟨hconsumed, by rw [if_pos (decide_eq_true hconsumed)]; rfl⟩
      · refine .inr ⟨hconsumed, ?_⟩
        rw [if_neg (by simp [hconsumed]), modify_bind_run, bind_run, call_run,
          asked_cons_of_present hes he]
        cases deserialize e.payload <;> rfl

lemma asked_cons_of_mem (h : id ∈ ids) : asked (id :: ids) es = asked ids es := by
  refine List.map_congr_left fun e _ => ?_
  have hmem : e.id ∈ id :: ids ↔ e.id ∈ ids := by
    rw [List.mem_cons, or_iff_right_of_imp]
    exact fun heq => heq ▸ h
  rw [decide_eq_decide.mpr hmem]

/-- A successful call of `optional` marks the field that it asks for. -/
lemma optional_asked {α : Type} {deserialize : List UInt8 → Outcome Error α} {u : FieldDecoder}
    {value : Option α} (hes : Increasing es)
    (h : FieldDecoder.optional deserialize id ⟨base, asked ids es⟩ = (.ok value, u)) :
    u = ⟨base, asked (id :: ids) es⟩ := by
  rcases optional_run base ids deserialize id hes with
    ⟨habsent, h'⟩ | ⟨e, -, -, ⟨-, h'⟩ | ⟨-, h'⟩⟩
  · rw [asked_cons_of_absent habsent]
    exact congrArg Prod.snd (h.symm.trans h')
  · cases h.symm.trans h'
  · exact congrArg Prod.snd (h.symm.trans h')

/-- What every call keeps: the fields are those of the frame, and the consumed ones are those that
were asked for. -/
lemma Calls.fields_eq {d u : FieldDecoder} (hes : Increasing es) (h : Calls d ids u)
    (hd : d = ⟨base, es.map Field.fresh⟩) : u = ⟨base, asked ids es⟩ := by
  induction h with
  | none d => rw [hd, asked_nil]
  | required _ hcall ih =>
      rw [ih hd, FieldDecoder.required, bind_eq_ok] at hcall
      obtain ⟨_, _, hoptional, hvalue⟩ := hcall
      obtain ⟨-, rfl⟩ := okOr_eq_ok.mp hvalue
      exact optional_asked hes hoptional
  | optional _ hcall ih =>
      rw [ih hd] at hcall
      exact optional_asked hes hcall
  | orDefault _ hcall ih =>
      rw [ih hd, FieldDecoder.orDefault, bind_eq_ok] at hcall
      obtain ⟨_, _, hoptional, hvalue⟩ := hcall
      cases hvalue
      exact optional_asked hes hoptional

lemma unknownFields_asked : unknownFields ⟨base, asked ids es⟩ = es.filter (·.id ∉ ids) := by
  rw [unknownFields, asked, List.filter_map, List.map_map]
  have hmap : ((fun field : Field => (⟨field.id, field.payload⟩ : EncodedField)) ∘
      fun e : EncodedField => (⟨e.id, e.payload, e.id ∈ ids⟩ : Field)) = id := rfl
  have hfilter : ((fun field : Field => !field.consumed) ∘
      fun e : EncodedField => (⟨e.id, e.payload, e.id ∈ ids⟩ : Field)) =
        fun e => decide (e.id ∉ ids) := by
    funext e
    simp
  rw [hmap, hfilter, List.map_id]

end FieldDecoder

open FieldEncoder FieldDecoder

/-- Frames and their fields: the order of the calls of `field` does not matter; a frame within the
limits exposes its version and its fields; an accepted frame without trailing bytes is the frame
of what it exposes; and the unknown fields are those that were not asked for, in order. -/
theorem frames_and_fields (base : Config) (schema : Schema) :
    (∀ es fs : List EncodedField, es.Perm fs → (es.map EncodedField.id).Nodup →
      serialize base schema (es.map EncodedField.call) = serialize base schema (fs.map EncodedField.call)) ∧
    (∀ es : List EncodedField, (es.map EncodedField.id).Nodup → Fits base es →
      ∃ (bytes : Slice 1 UInt8) (exposed : List EncodedField),
        serialize base schema (es.map EncodedField.call) = .ok bytes.elems ∧
          parse base schema.id bytes = .ok (schema.version, exposed.map Field.fresh) ∧
          exposed.Perm es) ∧
    (∀ (input : Slice 1 UInt8) (version : UInt32) (fields : List Field),
      base.trailing = .reject → parse base schema.id input = .ok (version, fields) →
      serialize base ⟨schema.id, version⟩ ((fields.map Field.encoded).map EncodedField.call) =
        .ok input.elems) ∧
    (∀ (input : Slice 1 UInt8) (version : UInt32) (fields : List Field) (ids : List UInt32)
      (decoder : FieldDecoder), parse base schema.id input = .ok (version, fields) →
      Calls ⟨base, fields⟩ ids decoder →
      decoder.unknownFields = (fields.map Field.encoded).filter (·.id ∉ ids) ∧
        Increasing decoder.unknownFields) := by
  have hencoded : ∀ es : List EncodedField, (es.map Field.fresh).map Field.encoded = es := by
    intro es
    rw [List.map_map]
    exact List.map_id es
  refine ⟨?_, ?_, ?_, ?_⟩
  · intro es fs hperm hids
    have hfids : (fs.map EncodedField.id).Nodup := (hperm.map _).nodup_iff.mp hids
    have hsort : sortByKey es = sortByKey fs :=
      (sortByKey_increasing hids).eq_of_perm (sortByKey_increasing hfids)
        ((perm_sortByKey es).trans (hperm.trans (perm_sortByKey fs).symm))
    rw [serialize_call hids, serialize_call hfids, FieldEncoder.finish, FieldEncoder.finish, hsort]
  · intro es hids hfits
    have hperm := perm_sortByKey es
    have hlen : ((sortByKey es).flatMap EncodedField.encode).length =
        (es.flatMap EncodedField.encode).length := (hperm.flatMap_right _).length_eq
    have hsorted : Fits base (sortByKey es) := by
      refine ⟨?_, ?_, ?_, ?_⟩
      · exact hperm.length_eq ▸ hfits.count_lt
      · exact hperm.length_eq ▸ hfits.collection_le
      · exact hlen ▸ hfits.size_le
      · exact hlen ▸ hfits.limit_le
    have hsize : 1 * (frame schema (sortByKey es)).length ≤ isizeMax := by
      rw [one_mul, length_frame]
      exact hsorted.size_le
    refine ⟨⟨frame schema (sortByKey es), hsize⟩, sortByKey es, ?_, ?_, hperm⟩
    · rw [serialize_call hids]
      exact FieldEncoder.finish_eq_ok.mpr ⟨hsorted, rfl⟩
    · refine parse_eq_ok.mpr ⟨?_, sortByKey es, [], ⟨hsorted.count_lt, hsorted.collection_le,
        sortByKey_increasing hids, ?_⟩, rfl, (List.append_nil _).symm, fun _ => rfl⟩
      · intro limit hlimit
        rw [length_frame]
        exact hsorted.limit_le limit hlimit
      · intro e he
        have hmem : e.encode.length ≤ ((sortByKey es).flatMap EncodedField.encode).length := by
          rw [List.flatMap]
          exact (List.sublist_flatten_of_mem (List.mem_map_of_mem he)).length_le
        have hle := hsorted.size_le
        rw [length_encode] at hmem
        rw [isizeMax] at hle
        omega
  · intro input version fields htrailing hparse
    obtain ⟨hlimit, es, rest, hes, rfl, hbytes, hend⟩ := parse_eq_ok.mp hparse
    rw [hend htrailing, List.append_nil] at hbytes
    have hsize := input.length_le
    rw [hbytes, one_mul, length_frame] at hsize
    rw [hbytes, length_frame] at hlimit
    rw [hencoded, serialize_call hes.increasing.nodup,
      hbytes, FieldEncoder.finish_eq_ok, sortByKey_eq_self hes.increasing]
    exact ⟨⟨hes.count_lt, hes.collection_le, hsize, hlimit⟩, rfl⟩
  · intro input version fields ids decoder hparse hcalls
    obtain ⟨-, es, -, hes, rfl, -, -⟩ := parse_eq_ok.mp hparse
    rw [hcalls.fields_eq hes.increasing rfl, unknownFields_asked, hencoded]
    exact ⟨rfl, hes.increasing.filter _⟩

end RustBinary.Evolution
