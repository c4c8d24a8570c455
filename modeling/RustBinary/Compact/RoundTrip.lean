import RustBinary.Compact.Replay

/-!
# Back from the wire

What `deserialize` makes of what `serialize` has written, under the same configuration: the scan of
the value tells.
-/

namespace RustBinary.Compact

open Lib Lib.Act CompactCursor

/-! ## The same configuration -/

/-- The errors of the byte, the collection and the depth limit. -/
def ResourceLimit : Error → Prop
  | .sizeLimit _ | .collectionLimit _ => True
  | e => e = depthError

section SameConfig

variable [Platform] {config : Config} {t : CompactType} {value : t.Value} {address : ℕ}
  {input : Slice 1 UInt8}

/-- The decoder of a value whose wire is the input, by the scan. -/
lemma meets_new (haccepted : t.Accepted) (h : t.Allocated value)
    (hhere : Tape.Here (CompactCursor.new address input config) (t.wire value))
    (hdepth : t.depth value ≤ config.depthLimit) :
    Meets t.decode (.new address input config) (t.contiguous value) (t.wire value).length
      (t.scan config.collectionLimit value address) :=
  t.replays haccepted value h (.new address input config) rfl hhere
    ((Nat.zero_add _).trans_le hdepth)

lemma meets_of_fits (address : ℕ) (haccepted : t.Accepted) (h : t.Allocated value)
    (hfits : Fits config t value) (hinput : input.elems = t.wire value) :
    Meets t.decode (.new address input config) (t.contiguous value) (t.wire value).length
      (t.scan config.collectionLimit value address) :=
  meets_new haccepted h
    (hinput ▸ here_new fun limit hlimit => hinput.symm ▸ hfits.limit limit hlimit)
    ((t.depth_le value).trans hfits.nesting_le)

/-- What `serialize` has written meets a limit of the decoder exactly when the scan meets a
collection above the limit. -/
theorem same_config_iff (config : Config) (e : Encodable) (value : e.type.Value) (address : ℕ)
    (input : Slice 1 UInt8) (h : e.type.Allocated value)
    (hok : serialize config e.type value = .ok input.elems) :
    (∀ error, deserialize config e.type address input = .err error → ¬ ResourceLimit error) ↔
      ∀ l, e.type.scan config.collectionLimit value address ≠ .error (.collection l) := by
  obtain ⟨hfits, hinput⟩ := (serialize_eq_ok e.accepted h).mp hok
  have hmeets := meets_of_fits address e.accepted h hfits hinput
  have hlength := congrArg List.length hinput
  generalize e.type.scan config.collectionLimit value address = o at hmeets ⊢
  rcases o with (⟨l⟩ | ⟨⟩) | stop
  · obtain ⟨u, -, hdecode⟩ := hmeets
    have herr : deserialize config e.type address input = .err (.collectionLimit l) := by
      rw [deserialize, hdecode]
      rfl
    exact iff_of_false (fun hno => hno _ herr trivial) fun hno => hno l rfl
  · have hpanic : deserialize config e.type address input = .panic := by
      rw [deserialize]
      rcases hdecode : e.type.decode (.new address input config) with ⟨v | e | _ | _, u⟩ <;>
        rw [Meets, hdecode] at hmeets <;> cases hmeets
      rfl
    rw [hpanic]
    exact iff_of_true (by rintro _ ⟨⟩) (by rintro _ ⟨⟩)
  · obtain ⟨-, hdecode⟩ := hmeets
    have hok' : deserialize config e.type address input = .ok (e.type.contiguous value) := by
      refine deserialize_eq_ok.mpr ⟨_, hdecode, fun _ => ?_⟩
      rw [hlength]
      exact Nat.zero_add _
    rw [hok']
    exact iff_of_true (by rintro _ ⟨⟩) (by rintro _ ⟨⟩)

end SameConfig

/-! ## Values within the limits -/

/-- A vector of this type is not copied at any address. -/
def CompactType.Gathers : CompactType → Prop
  | .scalar .i8 => False
  | .scalar (.float _) => False
  | _ => True

mutual

/-- No vector of `i8`, of `f32` or of `f64` is anywhere in the type. -/
def CompactType.CopyFree : CompactType → Prop
  | .scalar _ => True
  | .option t => t.CopyFree
  | .vec t => t.Gathers ∧ t.CopyFree
  | .deque t => t.CopyFree
  | .array _ t => t.CopyFree
  | .map _ key value => key.CopyFree ∧ value.CopyFree
  | .struct fields => fields.CopyFree
  | .enum variants => variants.CopyFree

def Fields.CopyFree : Fields → Prop
  | .nil => True
  | .cons t rest => t.CopyFree ∧ rest.CopyFree

def Variants.CopyFree : Variants → Prop
  | .nil => True
  | .cons fields rest => fields.CopyFree ∧ rest.CopyFree

end

/-- A collection of `len` elements is within the limit. -/
def WithinLimit (limit : Option ℕ) (len : ℕ) : Prop := ∀ l, limit = some l → len ≤ l

mutual

/-- Every collection of a value is within the collection limit. -/
def CompactType.Within (limit : Option ℕ) : (t : CompactType) → t.Value → Prop
  | .scalar _, _ => True
  | .option t, value => Every (t.Within limit) (Option.toList value)
  | .vec t, values => WithinLimit limit (List.length values) ∧ Every (t.Within limit) values
  | .deque t, (head, tail) =>
      WithinLimit limit (head ++ tail).length ∧ Every (t.Within limit) (head ++ tail)
  | .array _ t, values => Every (t.Within limit) values
  | .map _ key value, entries => WithinLimit limit (List.length entries) ∧
      Every (fun entry => key.Within limit entry.1 ∧ value.Within limit entry.2) entries
  | .struct fields, values => fields.Within limit values
  | .enum variants, value => variants.Within limit value

def Fields.Within (limit : Option ℕ) : (fields : Fields) → fields.Values → Prop
  | .nil, _ => True
  | .cons t rest, (value, values) => t.Within limit value ∧ rest.Within limit values

def Variants.Within (limit : Option ℕ) : (variants : Variants) → variants.Value → Prop
  | .cons fields _, .inl values => fields.Within limit values
  | .cons _ rest, .inr value => rest.Within limit value

end

section Within

variable {limit : Option ℕ}

lemma pass_before_pass (m n : ℕ) : (pass m).before (pass n) = pass (m + n) := by
  funext address
  exact congrArg Except.ok (Nat.add_assoc address m n)

lemma scanLength_of_within {len : ℕ} (h : WithinLimit limit len) :
    scanLength limit len = pass (encodeVarintLe len).length := by
  rcases limit with _ | l
  · rfl
  · exact if_neg (Nat.not_lt.mpr (h l rfl))

lemma scanEach_eq_pass {α : Type} {scan : α → Scan} {w : α → List UInt8} {as : List α}
    (h : ∀ a ∈ as, scan a = pass (w a).length) :
    scanEach scan as = pass (as.flatMap w).length := by
  induction as with
  | nil => rfl
  | cons a as ih =>
      obtain ⟨ha, has⟩ := List.forall_mem_cons.mp h
      rw [scanEach, ha, ih has, pass_before_pass, List.flatMap_cons, List.length_append]

variable [Platform]

lemma CompactType.scanVec_eq_pass {t : CompactType} {scan : t.Value → Scan} {values : List t.Value}
    (hgathers : t.Gathers) (h : ∀ value ∈ values, scan value = pass (t.wire value).length) :
    t.scanVec scan values = pass (values.flatMap t.wire).length := by
  cases t with
  | scalar s =>
      funext address
      have hcopied : ¬ s.Copied address := by
        cases s with
        | i8 => exact hgathers.elim
        | float w => exact hgathers.elim
        | _ => exact id
      exact if_neg fun h => hcopied h.1
  | _ => exact scanEach_eq_pass h

mutual

/-- Nothing stops the decoder in a value within the limit. -/
lemma CompactType.scan_eq_pass : (t : CompactType) → t.CopyFree → (value : t.Value) →
    t.Within limit value → t.scan limit value = pass (t.wire value).length
  | .scalar _, _, _, _ => rfl
  | .option _, _, none, _ => rfl
  | .option t, hfree, some value, h => by
      have hvalue := CompactType.scan_eq_pass t hfree value (h value (by simp))
      rw [CompactType.scan, CompactType.wire, hvalue, pass_before_pass, List.length_cons,
        Nat.add_comm]
  | .vec t, hfree, values, h => by
      have hvalues := CompactType.scanVec_eq_pass hfree.1 fun value hvalue =>
        CompactType.scan_eq_pass t hfree.2 value (h.2 value hvalue)
      rw [CompactType.scan, CompactType.wire, scanLength_of_within h.1, hvalues, pass_before_pass,
        List.length_append]
  | .deque t, hfree, (head, tail), h => by
      have hvalues := scanEach_eq_pass fun value hvalue =>
        CompactType.scan_eq_pass t hfree value (h.2 value hvalue)
      rw [CompactType.scan, CompactType.wire, scanLength_of_within h.1, hvalues, pass_before_pass,
        List.length_append, List.length_append]
  | .array _ t, hfree, values, h => scanEach_eq_pass fun value hvalue =>
      CompactType.scan_eq_pass t hfree value (h value hvalue)
  | .map _ key value, hfree, entries, h => by
      have hentries := @scanEach_eq_pass _
        (fun entry : key.Value × value.Value =>
          (key.scan limit entry.1).before (value.scan limit entry.2))
        (fun entry => key.wire entry.1 ++ value.wire entry.2) entries fun entry hentry => by
          rw [CompactType.scan_eq_pass key hfree.1 entry.1 (h.2 entry hentry).1,
            CompactType.scan_eq_pass value hfree.2 entry.2 (h.2 entry hentry).2, pass_before_pass,
            List.length_append]
      rw [CompactType.scan, CompactType.wire, scanLength_of_within h.1, hentries, pass_before_pass,
        List.length_append]
  | .struct fields, hfree, values, h => Fields.scan_eq_pass fields hfree values h
  | .enum variants, hfree, value, h => by
      rw [CompactType.scan, CompactType.wire, Variants.scan_eq_pass variants hfree value h,
        pass_before_pass, List.length_append]

lemma Fields.scan_eq_pass : (fields : Fields) → fields.CopyFree → (values : fields.Values) →
    fields.Within limit values → fields.scan limit values = pass (fields.wire values).length
  | .nil, _, _, _ => rfl
  | .cons t rest, hfree, (value, values), h => by
      rw [Fields.scan, Fields.wire, CompactType.scan_eq_pass t hfree.1 value h.1,
        Fields.scan_eq_pass rest hfree.2 values h.2, pass_before_pass, List.length_append]

lemma Variants.scan_eq_pass : (variants : Variants) → variants.CopyFree →
    (value : variants.Value) → variants.Within limit value →
    variants.scan limit value = pass (variants.wire value).length
  | .cons fields _, hfree, .inl values, h => Fields.scan_eq_pass fields hfree.1 values h
  | .cons _ rest, hfree, .inr value, h => Variants.scan_eq_pass rest hfree.2 value h

end

end Within

section RoundTrip

variable [Platform]

/-- A value within the limits comes back from the wire, and all of the wire is read. -/
theorem compact_round_trip (config : Config) (e : Encodable) (value : e.type.Value)
    (hfree : e.type.CopyFree) (h : e.type.Allocated value) (hfits : Fits config e.type value)
    (hwithin : e.type.Within config.collectionLimit value) :
    ∃ bytes, serialize config e.type value = .ok bytes ∧
      ∀ (address : ℕ) (input : Slice 1 UInt8), input.elems = bytes →
        deserialize config e.type address input = .ok (e.type.contiguous value) ∧
          (e.type.decode (.new address input config)).2.position = bytes.length := by
  refine ⟨_, (serialize_eq_ok e.accepted h).mpr ⟨hfits, rfl⟩, fun address input hinput => ?_⟩
  have hmeets := meets_of_fits address e.accepted h hfits hinput
  rw [e.type.scan_eq_pass hfree value hwithin] at hmeets
  obtain ⟨-, hdecode⟩ := hmeets
  have hposition : (Tape.advance (CompactCursor.new address input config)
      (e.type.wire value).length).position = (e.type.wire value).length := Nat.zero_add _
  refine ⟨deserialize_eq_ok.mpr ⟨_, hdecode, fun _ => ?_⟩, ?_⟩
  · rw [hinput, hposition]
  · rw [hdecode, hposition]

end RoundTrip

section Samples

attribute [local instance] Platform.sample

lemma allocated_threeBytes : byteVec.type.Allocated threeBytes :=
  ⟨⟨by decide, by decide⟩, fun _ _ => trivial⟩

theorem same_config_bytes :
    deserialize .standard byteVec.type 0 threeInput ≠ .err (.collectionLimit 65536) := by
  have hscan := (same_config_iff .standard byteVec threeBytes 0 threeInput allocated_threeBytes
    (by decide +kernel)).mpr (by rintro l ⟨⟩)
  exact fun herr => hscan _ herr trivial

/-- The encoder has no collection limit. -/
theorem same_config_collection :
    serialize (Config.standard.withCollectionLimit 2) byteVec.type threeBytes =
        .ok threeInput.elems ∧
      deserialize (Config.standard.withCollectionLimit 2) byteVec.type 0 threeInput =
        .err (.collectionLimit 2) ∧
      ResourceLimit (.collectionLimit 2) :=
  ⟨by decide +kernel, rfl, trivial⟩

theorem compact_round_trip_bytes :
    ∃ bytes, serialize .standard byteVec.type threeBytes = .ok bytes ∧
      ∀ (address : ℕ) (input : Slice 1 UInt8), input.elems = bytes →
        deserialize .standard byteVec.type address input = .ok (byteVec.type.contiguous threeBytes) ∧
          (byteVec.type.decode (.new address input .standard)).2.position = bytes.length := by
  refine compact_round_trip .standard byteVec threeBytes ⟨trivial, trivial⟩ allocated_threeBytes
    ⟨?_, by decide, by decide⟩ ⟨?_, fun _ _ => trivial⟩
  · rintro limit ⟨⟩
    decide
  · rintro limit ⟨⟩
    decide

end Samples

end RustBinary.Compact
