import RustBinary.Entropy.Compress
import RustBinary.Entropy.Tables

/-!
# Models of a schema

A reflected type has a model for each of its fields: a struct one over the alphabet of each field,
an enum one over its variants.  An alphabet that is not known, or that no model can have, is
replaced by that of the bytes.  Deriving the models never fails, and the records of a type, coded
field by field with them, are read back.
-/

namespace RustBinary.Entropy

open Lib Lib.Outcome EntropyConfig

/-! ## Reflection -/

/-- Description of one field; `symbols` is the size of its alphabet, or zero when unknown. -/
structure FieldInfo where
  name : String
  typeName : String
  index : ℕ
  symbols : UInt32
deriving DecidableEq, Repr

structure VariantInfo where
  name : String
  index : ℕ
  fields : List FieldInfo
deriving DecidableEq, Repr

inductive TypeShape where
  | struct (fields : List FieldInfo)
  | enum (variants : List VariantInfo)
deriving DecidableEq, Repr

/-! ## Deriving the models -/

structure FieldModel where
  name : String
  model : Model

structure SchemaModel where
  fields : List FieldModel

/-- `expect`. -/
def expect {ε ε' α : Type} : Outcome ε α → Outcome ε' α
  | .ok a => .ok a
  | .err _ => .panic
  | .panic => .panic
  | .diverge => .diverge

/-- The model of an alphabet, or that of the bytes. -/
def uniformOrBytes (symbols : ℕ) : Outcome Error Model :=
  match fromUniform symbols with
  | .err _ => expect (fromUniform 256)
  | out => out

/-- `model_for_field`. -/
def modelForField (field : FieldInfo) : Outcome Error Model :=
  uniformOrBytes (if field.symbols = 0 then 256 else field.symbols.toNat)

/-- `SchemaModel::from_reflect`; the number of variants is cut to a `u32`. -/
def SchemaModel.fromReflect : TypeShape → Outcome Error SchemaModel
  | .struct fields => do
      let fields ← mapAll (fun field => do
        let model ← modelForField field
        .ok ⟨field.name, model⟩) fields
      .ok ⟨fields⟩
  | .enum variants => do
      let model ← uniformOrBytes (variants.length % 2 ^ 32)
      .ok ⟨[⟨"variant", model⟩]⟩

/-- `SchemaModel::models`. -/
def SchemaModel.models (schema : SchemaModel) : List Model := schema.fields.map FieldModel.model

/-! ## Their alphabets -/

/-- The alphabet that is used for one of `symbols` symbols. -/
def alphabet (symbols : ℕ) : ℕ := if 0 < symbols ∧ symbols ≤ ransM then symbols else 256

/-- The names of the fields and their alphabets. -/
def TypeShape.alphabets : TypeShape → List (String × ℕ)
  | .struct fields => fields.map fun field =>
      (field.name, alphabet (if field.symbols = 0 then 256 else field.symbols.toNat))
  | .enum variants => [("variant", alphabet (variants.length % 2 ^ 32))]

lemma cumLoop_of {freqs : List ℕ} (hpos : ∀ f ∈ freqs, 0 < f) {last : ℕ}
    (hsum : last + freqs.sum ≤ ransM) : cumLoop last freqs = ok (last + freqs.sum) := by
  induction freqs generalizing last with
  | nil => rfl
  | cons f freqs ih =>
      obtain ⟨hf, hfreqs⟩ := List.forall_mem_cons.mp hpos
      rw [List.sum_cons] at hsum ⊢
      rw [cumLoop, if_neg hf.ne', if_neg (by omega), ih hfreqs (by omega), Nat.add_assoc]

/-- The frequencies of a model are accepted. -/
lemma fromFreqs_freqs (model : Model) : fromFreqs model.freqs = ok model := by
  have hne : model.freqs ≠ [] := by
    intro hnil
    have hsum := model.sum_eq
    rw [hnil] at hsum
    exact absurd hsum (by decide)
  have hloop : cumLoop 0 model.freqs = ok ransM := by
    rw [cumLoop_of model.pos (by rw [model.sum_eq]; omega), model.sum_eq, Nat.zero_add]
  rw [fromFreqs, if_neg hne]
  split
  · next total htotal =>
      obtain rfl := Outcome.ok.inj (hloop.symm.trans htotal)
      exact dif_pos rfl
  all_goals simp_all

lemma exists_uniformOrBytes (symbols : ℕ) :
    ∃ model, uniformOrBytes symbols = ok model ∧ model.symbols = alphabet symbols := by
  have huniform : ∀ n, 0 < n ∧ n ≤ ransM → ∃ model, fromUniform n = ok model ∧
      model.symbols = n := by
    intro n hn
    refine ⟨Tables.uniform hn, ?_, ?_⟩
    · rw [fromUniform, if_neg (by omega)]
      exact fromFreqs_freqs (Tables.uniform hn)
    · exact (List.length_map _).trans List.length_range
  by_cases h : 0 < symbols ∧ symbols ≤ ransM
  · obtain ⟨model, hmodel, hsymbols⟩ := huniform symbols h
    exact ⟨model, by rw [uniformOrBytes, hmodel], by rw [hsymbols, alphabet, if_pos h]⟩
  · obtain ⟨bytes, hbytes, hsymbols⟩ := huniform 256 (by decide)
    refine ⟨bytes, ?_, by rw [hsymbols, alphabet, if_neg h]⟩
    rw [uniformOrBytes, fromUniform, if_pos (by omega), hbytes]
    rfl

/-- A model for each field, over its alphabet. -/
lemma exists_fromReflect (shape : TypeShape) :
    ∃ schema, SchemaModel.fromReflect shape = ok schema ∧
      (schema.fields.map fun field => (field.name, field.model.symbols)) = shape.alphabets := by
  cases shape with
  | enum variants =>
      obtain ⟨model, hmodel, hsymbols⟩ := exists_uniformOrBytes (variants.length % 2 ^ 32)
      refine ⟨⟨[⟨"variant", model⟩]⟩, ?_, ?_⟩
      · rw [SchemaModel.fromReflect, hmodel]
        rfl
      · rw [TypeShape.alphabets, ← hsymbols]
        rfl
  | struct fields =>
      have hall : ∃ models : List FieldModel, mapAll (fun field => do
          let model ← modelForField field
          .ok (⟨field.name, model⟩ : FieldModel)) fields = ok models ∧
          (models.map fun field => (field.name, field.model.symbols)) =
            (TypeShape.struct fields).alphabets := by
        induction fields with
        | nil => exact ⟨[], rfl, rfl⟩
        | cons field fields ih =>
            obtain ⟨models, hmodels, halphabets⟩ := ih
            obtain ⟨model, hmodel, hsymbols⟩ :=
              exists_uniformOrBytes (if field.symbols = 0 then 256 else field.symbols.toNat)
            have hfield : modelForField field = ok model := hmodel
            refine ⟨⟨field.name, model⟩ :: models, ?_, ?_⟩
            · rw [mapAll, hfield, hmodels]
              rfl
            · rw [List.map_cons, halphabets, TypeShape.alphabets, TypeShape.alphabets,
                List.map_cons, ← hsymbols]
      obtain ⟨models, hmodels, halphabets⟩ := hall
      exact ⟨⟨models⟩, by rw [SchemaModel.fromReflect, hmodels]; rfl, halphabets⟩

/-! ## Records -/

/-- A record has a symbol for each field, within the alphabet of the field. -/
def Fits (models : List Model) (record : List ℕ) : Prop :=
  List.Forall₂ (fun model symbol => symbol < model.symbols) models record

/-- The models for `count` records, field after field. -/
def recordModels (models : List Model) (count : ℕ) : List Model :=
  (List.replicate count models).flatten

lemma inAlphabets_zip_iff {models : List Model} {record : List ℕ}
    (hlen : models.length = record.length) :
    InAlphabets (models.zip record) ↔ Fits models record := by
  rw [Fits, List.forall₂_iff_zip, InAlphabets]
  exact ⟨fun h => ⟨hlen, fun hmem => h _ hmem⟩, fun h p hp => h.2 hp⟩

section Records

variable {models : List Model} {records : List (List ℕ)}

lemma length_recordModels (hlen : ∀ record ∈ records, record.length = models.length) :
    (recordModels models records.length).length = records.flatten.length := by
  induction records with
  | nil => rfl
  | cons record records ih =>
      obtain ⟨hfirst, hrest⟩ := List.forall_mem_cons.mp hlen
      rw [List.length_cons, recordModels, List.replicate_succ, List.flatten_cons,
        List.length_append, List.flatten_cons, List.length_append, hfirst, ← ih hrest]
      rfl

/-- The pairs of all records are those of the records. -/
lemma inAlphabets_records (hlen : ∀ record ∈ records, record.length = models.length) :
    InAlphabets ((recordModels models records.length).zip records.flatten) ↔
      ∀ record ∈ records, Fits models record := by
  induction records with
  | nil => simp [InAlphabets, recordModels]
  | cons record records ih =>
      obtain ⟨hfirst, hrest⟩ := List.forall_mem_cons.mp hlen
      rw [List.forall_mem_cons, ← ih hrest, ← inAlphabets_zip_iff hfirst.symm, List.length_cons,
        recordModels, List.replicate_succ, List.flatten_cons, List.flatten_cons,
        List.zip_append hfirst.symm, InAlphabets, List.forall_mem_append]
      rfl

end Records

lemma encodeSequence_eq_ok {c : EntropyConfig} {models : List Model} {symbols : List ℕ}
    {bytes : List UInt8} :
    c.encodeSequence models symbols = ok bytes ↔ models.length = symbols.length ∧
      ∃ e, putSymbols (models.zip symbols) .new = ok e ∧ headerLen + e.bytes.length ≤ u64Max ∧
        c.base.enforceByteLimit (headerLen + e.bytes.length) = ok () ∧
        bytes = frame e.state symbols.length e.bytes false := by
  rw [encodeSequence, bind_eq_ok]
  constructor
  · rintro ⟨_, hlen, h⟩
    obtain ⟨e, hput, h⟩ := bind_eq_ok.mp h
    exact ⟨require_eq_ok.mp hlen, e, hput, wrap_eq_ok.mp h⟩
  · rintro ⟨hlen, e, hput, h⟩
    exact ⟨(), require_of hlen, bind_eq_ok.mpr ⟨e, hput, wrap_eq_ok.mpr h⟩⟩

/-- At most a word is flushed for a symbol. -/
lemma bytes_length_le {pairs : List (Model × ℕ)} {e : RansEncoder}
    (h : putSymbols pairs .new = ok e) : e.bytes.length ≤ 2 * pairs.length := by
  obtain ⟨e₁, hput, -, ⟨w, hw, hwlen⟩, -⟩ :=
    putSymbols_getSymbols (inAlphabets_of_putSymbols h) RansEncoder.inRange_new
  obtain rfl := Outcome.ok.inj (h.symm.trans hput)
  rw [hw]
  exact hwlen

/-- A frame with the coded form of a sequence is decoded to the sequence. -/
lemma decodeSequence_coded {c : EntropyConfig} {models : List Model} {symbols : List ℕ}
    (hlen : models.length = symbols.length) (hsize : 8 * models.length ≤ isizeMax)
    {e : RansEncoder} (hput : putSymbols (models.zip symbols) .new = ok e) {read : Input}
    (hread : read.bytes = frame e.state symbols.length e.bytes false)
    (hlimit : c.base.enforceByteLimit read.bytes.length = ok ()) :
    c.decodeSequence models read = ok symbols := by
  obtain ⟨e₁, hput₁, he, -, hget⟩ :=
    putSymbols_getSymbols (inAlphabets_of_putSymbols hput) RansEncoder.inRange_new
  obtain rfl := Outcome.ok.inj (hput.symm.trans hput₁)
  -- the first symbol is put on without a flush, so that no word is pending at the end
  obtain ⟨d, hsymbols, -, hexact⟩ := hget []
  obtain rfl := hexact (by decide)
  have hfst : (models.zip symbols).reverse.map Prod.fst = models.reverse := by
    rw [List.map_reverse, List.map_fst_zip hlen.le]
  have hsnd : (models.zip symbols).reverse.map Prod.snd = symbols.reverse := by
    rw [List.map_reverse, List.map_snd_zip hlen.ge]
  rw [hfst, hsnd, List.append_nil] at hsymbols
  change _ = ok (symbols.reverse, RansDecoder.mk ransL e.bytes 0) at hsymbols
  have hmachine : isizeMax = 2 ^ 63 - 1 ∧ u64Max = 2 ^ 64 - 1 := ⟨rfl, rfl⟩
  have hstate := he.2
  have hunwrap : c.unwrap read.bytes = ok (symbols.length, e.state, false, e.bytes) :=
    unwrap_eq_ok.mpr ⟨hread, by omega, by omega, by simp, hlimit⟩
  have hcap : withCapacity 4 symbols.length = ok () := withCapacity_of_le (by omega)
  have hfinish : RansDecoder.finish ⟨ransL, e.bytes, 0⟩ = ok () := rfl
  have hreplay : checkReplay e.state e.bytes e.state e.bytes = ok () := require_of ⟨rfl, rfl⟩
  rw [decodeSequence, hunwrap, ok_bind]
  dsimp only
  rw [require_of hlen.symm, ok_bind, if_neg (by simp), hcap, ok_bind, RansDecoder.new, hsymbols,
    ok_bind]
  dsimp only
  rw [List.reverse_reverse, hfinish, ok_bind, hput]
  cases c.replayVerification with
  | false => rfl
  | true => simp only [if_true, ok_bind, hreplay]

/-- **Records of a schema.**  Every shape has its models, one over the alphabet of each field.  The
records of a type, one symbol for each field, are coded with them only if every symbol is within the
alphabet of its field, and then they are where the byte limit admits two bytes for each symbol; no
frame is longer than this, and every profile whose own byte limit admits it reads the records
back. -/
theorem schema_records (shape : TypeShape) : ∃ schema, SchemaModel.fromReflect shape = ok schema ∧
    (schema.fields.map fun field => (field.name, field.model.symbols)) = shape.alphabets ∧
    ∀ (c₁ c₂ : EntropyConfig) (records : List (List ℕ)),
      (∀ record ∈ records, record.length = shape.alphabets.length) →
      8 * records.flatten.length ≤ isizeMax →
      ((∀ record ∈ records, List.Forall₂ (fun field symbol => symbol < field.2) shape.alphabets
          record) →
        (∀ limit, c₁.base.limit = some limit → headerLen + 2 * records.flatten.length ≤ limit) →
        ∃ bytes, c₁.encodeSequence (recordModels schema.models records.length) records.flatten
          = ok bytes) ∧
      ∀ bytes, c₁.encodeSequence (recordModels schema.models records.length) records.flatten
          = ok bytes →
        (∀ record ∈ records, List.Forall₂ (fun field symbol => symbol < field.2) shape.alphabets
          record) ∧
        bytes.length ≤ headerLen + 2 * records.flatten.length ∧
        ∀ read : Input, read.bytes = bytes → c₂.base.enforceByteLimit bytes.length = ok () →
          c₂.decodeSequence (recordModels schema.models records.length) read
            = ok records.flatten := by
  obtain ⟨schema, hschema, halphabets⟩ := exists_fromReflect shape
  have hlength : shape.alphabets.length = schema.models.length := by
    rw [← halphabets, List.length_map, SchemaModel.models, List.length_map]
  have hfits (record : List ℕ) : List.Forall₂ (fun field symbol => symbol < field.2)
      shape.alphabets record ↔ Fits schema.models record := by
    rw [← halphabets, List.forall₂_map_left_iff, Fits, SchemaModel.models,
      List.forall₂_map_left_iff]
  refine ⟨schema, hschema, halphabets, fun c₁ c₂ records hrecords hsize => ?_⟩
  simp only [hfits, hlength] at hrecords ⊢
  have hlen := length_recordModels hrecords
  have hzip : ((recordModels schema.models records.length).zip records.flatten).length =
      records.flatten.length := by
    rw [List.length_zip, hlen, Nat.min_self]
  have hmachine : isizeMax = 2 ^ 63 - 1 ∧ u64Max = 2 ^ 64 - 1 ∧ headerLen = 24 := ⟨rfl, rfl, rfl⟩
  constructor
  · intro hall hlimit
    obtain ⟨e, hput, -⟩ :=
      putSymbols_getSymbols ((inAlphabets_records hrecords).mpr hall) RansEncoder.inRange_new
    have hle := bytes_length_le hput
    rw [hzip] at hle
    refine ⟨_, encodeSequence_eq_ok.mpr ⟨hlen, e, hput, by omega, ?_, rfl⟩⟩
    exact Config.enforceByteLimit_eq_ok.mpr fun limit h => by
      have := hlimit limit h
      omega
  · intro bytes hencode
    obtain ⟨-, e, hput, -, -, rfl⟩ := encodeSequence_eq_ok.mp hencode
    have hle := bytes_length_le hput
    rw [hzip] at hle
    refine ⟨(inAlphabets_records hrecords).mp (inAlphabets_of_putSymbols hput), ?_,
      fun read hread hlimit => ?_⟩
    · rw [frame_length]
      omega
    · rw [← hread] at hlimit
      exact decodeSequence_coded hlen (hlen ▸ hsize) hput hread hlimit

/-- Three records of a flag and a lane of three. -/
theorem schema_records_lanes :
    let shape := TypeShape.struct [⟨"flag", "bool", 0, 2⟩, ⟨"lane", "u8", 1, 3⟩]
    let c := EntropyConfig.new Config.standard
    ∃ schema bytes, SchemaModel.fromReflect shape = ok schema ∧
      (schema.fields.map fun field => (field.name, field.model.symbols)) =
        [("flag", 2), ("lane", 3)] ∧
      c.encodeSequence (recordModels schema.models 3) [1, 2, 0, 1, 1, 0] = ok bytes ∧
      bytes.length ≤ 36 ∧
      ∀ read : Input, read.bytes = bytes →
        c.decodeSequence (recordModels schema.models 3) read = ok [1, 2, 0, 1, 1, 0] := by
  intro shape c
  obtain ⟨schema, hschema, halphabets, hrecords⟩ := schema_records shape
  obtain ⟨hwrite, hread⟩ := hrecords c c [[1, 2], [0, 1], [1, 0]] (by decide) (by decide)
  obtain ⟨bytes, hbytes⟩ := hwrite (by decide) (by decide)
  obtain ⟨-, hlength, hback⟩ := hread bytes hbytes
  have hle : bytes.length ≤ 36 := hlength
  refine ⟨schema, bytes, hschema, halphabets, hbytes, hle, fun read heq => hback read heq ?_⟩
  refine Config.enforceByteLimit_eq_ok.mpr fun limit hlimit => ?_
  rw [← Option.some.inj hlimit, defaultSizeLimit]
  omega

end RustBinary.Entropy
