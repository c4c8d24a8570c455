import RustBinary.Compact.Encoder
import RustBinary.Core.Varint

/-!
# The compact wire

What a value is on the wire, and how deep its collections are nested, whatever the sink.  The
encoder never looks at its sink: it plays a script that has the wire of the value for its bytes and
the nesting for its height.
-/

namespace RustBinary.Compact

open Lib Lib.Act Native
open EncodeWriter (writeAll)
open ContainerWriter (enterContainer exitContainer)

/-! ## The wire of a value -/

/-- The largest of some numbers. -/
def largest (ns : List ℕ) : ℕ := ns.foldr max 0

def Scalar.wire : (s : Scalar) → s.Value → List UInt8
  | .unit, _ => []
  | .bool, value => [boolByte value]
  | .u8, value => [value]
  | .i8, value => [Int8.toUInt8 value]
  | .unsigned _, value => encodeVarintLe (BitVec.toNat value)
  | .signed _, value => encodeVarintLe (zigzagEncode (BitVec.toInt value))
  | .u128, value => encodeVarintLe (BitVec.toNat value)
  | .i128, value => encodeVarintLe (zigzagEncode (BitVec.toInt value))
  | .float w, value => leBytes w.bytes (BitVec.toNat value)
  | .char, value => encodeVarintLe (Char.toNat value)
  | .string, value => encodeVarintLe (toUtf8 value).length ++ toUtf8 value
  | .bytes, value => List.append (encodeVarintLe (List.length value)) value

mutual

def CompactType.wire : (t : CompactType) → t.Value → List UInt8
  | .scalar s, value => s.wire value
  | .option _, none => [0]
  | .option t, some value => 1 :: t.wire value
  | .vec t, values => encodeVarintLe (List.length values) ++ List.flatMap t.wire values
  | .deque t, (head, tail) =>
      encodeVarintLe (head.length + tail.length) ++ (head ++ tail).flatMap t.wire
  | .array _ t, values => List.flatMap t.wire values
  | .map _ key value, entries =>
      encodeVarintLe (List.length entries) ++
        List.flatMap (fun entry => key.wire entry.1 ++ value.wire entry.2) entries
  | .struct fields, values => fields.wire values
  | .enum variants, value => encodeVarintLe (variants.index value) ++ variants.wire value

def Fields.wire : (fields : Fields) → fields.Values → List UInt8
  | .nil, _ => []
  | .cons t rest, (value, values) => t.wire value ++ rest.wire values

/-- The fields behind the index. -/
def Variants.wire : (variants : Variants) → variants.Value → List UInt8
  | .cons fields _, .inl values => fields.wire values
  | .cons _ rest, .inr value => rest.wire value

end

/-- The encoder counts a byte slice as a collection. -/
def Scalar.nesting : Scalar → ℕ
  | .bytes => 1
  | _ => 0

mutual

/-- How deep the collections of a value are nested for the encoder. -/
def CompactType.nesting : (t : CompactType) → t.Value → ℕ
  | .scalar s, _ => s.nesting
  | .option _, none => 0
  | .option t, some value => t.nesting value
  | .vec t, values => largest (List.map t.nesting values) + 1
  | .deque t, (head, tail) => largest ((head ++ tail).map t.nesting) + 1
  | .array _ t, values => largest (List.map t.nesting values)
  | .map _ key value, entries =>
      largest (List.map (fun entry => max (key.nesting entry.1) (value.nesting entry.2)) entries) + 1
  | .struct fields, values => fields.nesting values
  | .enum variants, value => variants.nesting value

def Fields.nesting : (fields : Fields) → fields.Values → ℕ
  | .nil, _ => 0
  | .cons t rest, (value, values) => max (t.nesting value) (rest.nesting values)

def Variants.nesting : (variants : Variants) → variants.Value → ℕ
  | .cons fields _, .inl values => fields.nesting values
  | .cons _ rest, .inr value => rest.nesting value

end

/-! ## Scripts -/

/-- On every sink `m` plays a script with the bytes `bs` and the height `n`, whose texts are
slices. -/
def Scripted (m : (W : Type) → [ContainerWriter W] → Act W Error Unit) (bs : List UInt8) (n : ℕ) :
    Prop :=
  ∃ script : Script UInt8, (∀ (W : Type) [ContainerWriter W],
      m W = script.run writeAll enterContainer exitContainer) ∧
    script.bytes = bs ∧ script.height = n ∧ ∀ text ∈ script.flat, text.length ≤ isizeMax

lemma largest_append (xs ys : List ℕ) : largest (xs ++ ys) = max (largest xs) (largest ys) := by
  induction xs with
  | nil => simp [largest]
  | cons x xs ih =>
      simp only [largest, List.cons_append, List.foldr_cons] at ih ⊢
      rw [ih, max_assoc]

lemma largest_eq_zero {ns : List ℕ} (h : ∀ n ∈ ns, n = 0) : largest ns = 0 := by
  induction ns with
  | nil => rfl
  | cons n ns ih =>
      obtain ⟨rfl, hns⟩ := List.forall_mem_cons.mp h
      simpa [largest] using ih hns

namespace Scripted

variable {m m' : (W : Type) → [ContainerWriter W] → Act W Error Unit} {bs bs' : List UInt8}
  {n n' : ℕ}

lemma pure : Scripted (fun _ _ => pure ()) [] 0 :=
  ⟨.done, fun _ _ => rfl, rfl, rfl, by simp [Script.flat]⟩

lemma write {bs : List UInt8} (h : bs.length ≤ isizeMax) :
    Scripted (fun _ _ => writeAll bs) bs 0 :=
  ⟨.text bs, fun _ _ => (Script.run_text _ _ _ bs).symm, Script.bytes_text bs, rfl, by
    simpa [Script.text, Script.flat] using h⟩

/-- Bytes that are copied at once. -/
lemma copied {α : Type} {f : α → UInt8} {values : List α} (h : values.length ≤ isizeMax) :
    Scripted (fun _ _ => writeAll (values.map f)) (values.flatMap fun value => [f value]) 0 := by
  rw [← List.map_eq_flatMap]
  exact write (by rwa [List.length_map])

lemma bind (h : Scripted m bs n) (h' : Scripted m' bs' n') :
    Scripted (fun W _ => do m W; m' W) (bs ++ bs') (max n n') := by
  obtain ⟨a, ha, rfl, rfl, haflat⟩ := h
  obtain ⟨b, hb, rfl, rfl, hbflat⟩ := h'
  refine ⟨a ++ b, fun W _ => ?_, Script.bytes_append a b, Script.height_append a b, ?_⟩
  · rw [Script.run_append, ← ha W, ← hb W]
  · intro text htext
    rw [Script.flat_append, List.mem_append] at htext
    exact htext.elim (haflat text) (hbflat text)

lemma container (h : Scripted m bs n) :
    Scripted (fun W _ => do enterContainer; (m W).leaving exitContainer) bs (n + 1) := by
  obtain ⟨a, ha, rfl, rfl, hflat⟩ := h
  refine ⟨.container a .done, fun W _ => ?_, List.append_nil _, ?_, ?_⟩
  · rw [Script.run_container, ← ha W]
  · rw [Script.height, Script.height, Nat.max_zero]
  · simpa [Script.flat] using hflat

lemma congr (h : Scripted m bs n) (hbs : bs = bs') (hn : n = n') : Scripted m bs' n' :=
  hbs ▸ hn ▸ h

lemma of_eq (h : Scripted m bs n)
    (heq : ∀ (W : Type) [ContainerWriter W], m' W = m W) : Scripted m' bs n := by
  obtain ⟨a, ha, hrest⟩ := h
  exact ⟨a, fun W _ => (heq W).trans (ha W), hrest⟩

lemma all {α : Type} {f : (W : Type) → [ContainerWriter W] → α → Act W Error Unit}
    {g : α → List UInt8} {k : α → ℕ} {as : List α}
    (h : ∀ a ∈ as, Scripted (fun W _ => f W a) (g a) (k a)) :
    Scripted (fun W _ => encodeAll (f W) as) (as.flatMap g) (largest (as.map k)) := by
  induction as with
  | nil => exact pure
  | cons a as ih =>
      obtain ⟨ha, has⟩ := List.forall_mem_cons.mp h
      exact ha.bind (ih has)

/-! ### Varints -/

lemma length_encodeVarintLe (value : ℕ) :
    0 < (encodeVarintLe value).length ∧ (encodeVarintLe value).length ≤ 17 := by
  rw [encodeVarintLe]
  split_ifs <;> simp

lemma varint (value : ℕ) : Scripted (fun _ _ => encodeVarint value) (encodeVarintLe value) 0 :=
  write ((length_encodeVarintLe value).2.trans (by decide))

lemma length {len : ℕ} (h : len ≤ u64Max) :
    Scripted (fun _ _ => encodeLength len) (encodeVarintLe len) 0 :=
  (varint len).of_eq fun _ _ => if_pos h

lemma encodeContainer {len : ℕ} (hlen : len ≤ u64Max) (h : Scripted m bs n) :
    Scripted (fun W _ => Compact.encodeContainer len (m W)) (encodeVarintLe len ++ bs) (n + 1) :=
  ((length hlen).bind h.container).congr rfl (Nat.zero_max _)

lemma writeVarintInto_eq {value : ℕ} (h : value < 2 ^ 64) :
    writeVarintInto value = encodeVarintLe value ∧ (encodeVarintLe value).length ≤ 9 := by
  rw [writeVarintInto, encodeVarintLe]
  split_ifs <;> first | omega | simp

/-- The buffer is written when the next varint may not fit behind it. -/
lemma varintsLoop {buffer : List UInt8} {values : List ℕ} (hbuffer : buffer.length ≤ 64)
    (hvalues : ∀ value ∈ values, value < 2 ^ 64) :
    Scripted (fun _ _ => Compact.varintsLoop buffer values)
      (buffer ++ values.flatMap encodeVarintLe) 0 := by
  have hslice : ∀ {xs : List UInt8}, xs.length ≤ 64 → xs.length ≤ isizeMax :=
    fun h => h.trans (by decide)
  induction values generalizing buffer with
  | nil =>
      rw [List.flatMap_nil, List.append_nil]
      rcases buffer with _ | ⟨byte, rest⟩
      · exact pure
      · exact write (hslice hbuffer)
  | cons value rest ih =>
      obtain ⟨hvalue, hrest⟩ := List.forall_mem_cons.mp hvalues
      obtain ⟨hbytes, hlen⟩ := writeVarintInto_eq hvalue
      rw [List.flatMap_cons]
      by_cases hflush : 64 < buffer.length + 17
      · have hnext : (encodeVarintLe value).length ≤ 64 := hlen.trans (by decide)
        refine ((write (hslice hbuffer)).bind (ih hnext hrest)).of_eq fun W _ => ?_
        rw [Compact.varintsLoop, if_pos hflush, hbytes, if_neg (Nat.not_lt.mpr hnext)]
      · have hnext : (buffer ++ encodeVarintLe value).length ≤ 64 := by
          rw [List.length_append]
          omega
        refine ((ih hnext hrest).of_eq fun W _ => ?_).congr (List.append_assoc _ _ _) rfl
        rw [List.length_append] at hnext
        rw [Compact.varintsLoop, if_neg hflush, hbytes, if_neg (Nat.not_lt.mpr hnext)]

lemma varints {α : Type} {f : α → ℕ} {values : List α} (h : ∀ value ∈ values, f value < 2 ^ 64) :
    Scripted (fun _ _ => encodeVarintsBulk (values.map f))
      (values.flatMap fun value => encodeVarintLe (f value)) 0 := by
  have hloop := @varintsLoop [] (values.map f) (by decide)
    (List.forall_mem_map.mpr h)
  refine hloop.congr ?_ rfl
  rw [List.nil_append, List.flatMap_map]

end Scripted

/-! ## The encoder plays a script -/

lemma word_lt {w : VarWidth} (value : BitVec w.bits) : value.toNat < 2 ^ 64 := by
  refine lt_of_lt_of_le value.isLt (Nat.pow_le_pow_right (by decide) ?_)
  cases w <;> decide

/-- A signed word of at most 64 bits is an `i64`. -/
lemma toInt_bounds {w : VarWidth} (value : BitVec w.bits) :
    -2 ^ 63 ≤ value.toInt ∧ value.toInt < 2 ^ 63 := by
  have hlt := BitVec.two_mul_toInt_lt (x := value)
  have hle := BitVec.le_two_mul_toInt (x := value)
  have hbits : ((2 ^ w.bits : ℕ) : ℤ) ≤ 2 ^ 64 := by
    cases w <;> decide
  push_cast at hbits
  omega

lemma zigzag_lt {w : VarWidth} (value : BitVec w.bits) : zigzagEncode value.toInt < 2 ^ 64 := by
  obtain ⟨hle, hlt⟩ := toInt_bounds value
  have h := zigzagEncode_eq (z := value.toInt) (by omega) (by omega)
  split at h <;> omega

lemma Scripted.floats [Target] {w : FloatWidth} {values : List (BitVec w.bits)}
    (h : w.bytes * values.length ≤ isizeMax) :
    Scripted (fun _ _ => writeFloatsLe w values)
      (values.flatMap fun value => leBytes w.bytes value.toNat) 0 := by
  have hbytes : w.bytes ≤ isizeMax := by
    cases w <;> decide
  by_cases hlittle : Target.littleEndian
  · have hlen : (values.flatMap fun value => leBytes w.bytes value.toNat).length
        = w.bytes * values.length := by
      induction values with
      | nil => rfl
      | cons value values ih =>
          rw [List.length_cons, Nat.mul_add, Nat.mul_one] at h ⊢
          rw [List.flatMap_cons, List.length_append, length_leBytes, ih (by omega), Nat.add_comm]
    refine (Scripted.write (hlen.trans_le h)).of_eq fun W _ => ?_
    have hmul : checkedMul values.length w.bytes = some (values.length * w.bytes) := by
      rw [checkedMul, if_pos]
      rw [isizeMax, Nat.mul_comm] at h
      rw [u64Max]
      omega
    rw [writeFloatsLe, if_pos hlittle, hmul]
    rfl
  · have hall := @Scripted.all _ _ _ (fun _ => 0) values fun (value : BitVec w.bits) _ =>
      Scripted.write ((length_leBytes w.bytes value.toNat).trans_le hbytes)
    refine (hall.of_eq fun W _ => ?_).congr rfl (largest_eq_zero ?_)
    · rw [writeFloatsLe, if_neg hlittle]
    · simp

namespace Scalar

lemma scripted (s : Scalar) (value : s.Value) (h : s.Allocated value) :
    Scripted (fun _ _ => s.encode value) (s.wire value) s.nesting := by
  have hbyte : ∀ byte : UInt8, Scripted (fun _ _ => writeAll [byte]) [byte] 0 :=
    fun byte => .write (by simp [isizeMax])
  have hlength : ∀ len : ℕ, len ≤ isizeMax → len ≤ u64Max := fun len hle => hle.trans (by decide)
  cases s with
  | unit => exact .pure
  | bool => exact hbyte _
  | u8 => exact hbyte _
  | i8 => exact hbyte _
  | unsigned w => exact .varint _
  | signed w => exact .varint _
  | u128 => exact .varint _
  | i128 => exact .varint _
  | float w =>
      refine .write ?_
      rw [length_leBytes]
      cases w <;> decide
  | char => exact .varint _
  | string => exact (Scripted.length (hlength _ h)).bind (.write h)
  | bytes => exact .encodeContainer (hlength _ h) (.write h)

/-- The fast paths write what the elements write one by one. -/
lemma scripted_elements [Target] (s : Scalar) {values : List s.Value}
    (hsize : s.size * values.length ≤ isizeMax) (h : ∀ value ∈ values, s.Allocated value) :
    Scripted (fun _ _ => s.encodeElements values) (values.flatMap s.wire)
      (largest (values.map fun _ => s.nesting)) := by
  have hall := Scripted.all fun value hvalue => s.scripted value (h value hvalue)
  have hzero : s.nesting = 0 → 0 = largest (values.map fun _ => s.nesting) := by
    intro hnesting
    rw [largest_eq_zero]
    simp [hnesting]
  cases s with
  | u8 =>
      have hlen : values.length ≤ isizeMax := by simpa only [size, Nat.one_mul] using hsize
      have hbytes : List.map (fun byte : UInt8 => byte) values = values := List.map_id _
      have hcopied := Scripted.copied (f := fun byte : UInt8 => byte) hlen
      exact (hbytes ▸ hcopied).congr rfl (hzero rfl)
  | i8 =>
      have hlen : values.length ≤ isizeMax := by simpa only [size, Nat.one_mul] using hsize
      exact (Scripted.copied (f := Int8.toUInt8) hlen).congr rfl (hzero rfl)
  | unsigned w => exact (Scripted.varints fun value _ => word_lt value).congr rfl (hzero rfl)
  | signed w =>
      have hword : ∀ value : BitVec w.bits,
          zigzagEncode value.toInt % 2 ^ 64 = zigzagEncode value.toInt :=
        fun value => Nat.mod_eq_of_lt (zigzag_lt value)
      have hvarints := @Scripted.varints _
        (fun value : BitVec w.bits => zigzagEncode value.toInt % 2 ^ 64) values
        fun value _ => Nat.mod_lt _ (by decide)
      refine hvarints.congr ?_ (hzero rfl)
      simp only [hword]
      rfl
  | float w => exact (Scripted.floats hsize).congr rfl (hzero rfl)
  | _ => exact hall

end Scalar

section Types

variable [Platform]

lemma CompactType.scripted_elements {t : CompactType}
    {encode : (W : Type) → [ContainerWriter W] → t.Value → Act W Error Unit}
    {values : List t.Value} (hsize : Platform.size t * values.length ≤ isizeMax)
    (hallocated : Every t.Allocated values)
    (h : ∀ value ∈ values, Scripted (fun W _ => encode W value) (t.wire value) (t.nesting value)) :
    Scripted (fun W _ => t.encodeElements (encode W) values) (values.flatMap t.wire)
      (largest (values.map t.nesting)) := by
  cases t with
  | scalar s =>
      rw [Platform.size_scalar] at hsize
      exact s.scripted_elements hsize hallocated
  | _ => exact .all h

mutual

lemma CompactType.scripted : (t : CompactType) → t.Accepted → (value : t.Value) →
    t.Allocated value → Scripted (fun _ _ => t.encode value) (t.wire value) (t.nesting value)
  | .scalar s, _, value, h => s.scripted value h
  | .option _, _, none, _ => .write (by decide)
  | .option t, haccepted, some value, h => by
      have hvalue := CompactType.scripted t haccepted value (h value (by simp))
      exact ((Scripted.write (by decide : ([1] : List UInt8).length ≤ isizeMax)).bind hvalue).congr
        rfl (Nat.zero_max _)
  | .vec t, haccepted, values, h =>
      .encodeContainer h.1.1 (CompactType.scripted_elements h.1.2 h.2 fun value hvalue =>
        CompactType.scripted t haccepted value (h.2 value hvalue))
  | .deque t, haccepted, (head, tail), h => by
      have hspan := h.1.2
      rw [List.length_append, Nat.mul_add] at hspan
      have hhead : Every t.Allocated head := fun a ha => h.2 a (List.mem_append_left _ ha)
      have htail : Every t.Allocated tail := fun a ha => h.2 a (List.mem_append_right _ ha)
      have h₁ := CompactType.scripted_elements (show Platform.size t * head.length ≤ isizeMax by omega)
        hhead fun value hvalue => CompactType.scripted t haccepted value (hhead value hvalue)
      have h₂ := CompactType.scripted_elements (show Platform.size t * tail.length ≤ isizeMax by omega)
        htail fun value hvalue => CompactType.scripted t haccepted value (htail value hvalue)
      have hlength := h.1.1
      rw [List.length_append] at hlength
      refine (Scripted.encodeContainer hlength (h₁.bind h₂)).congr ?_ ?_
      · rw [CompactType.wire, List.flatMap_append]
      · rw [CompactType.nesting, List.map_append, largest_append]
  | .array n t, haccepted, values, h => by
      refine CompactType.scripted_elements ?_ h.2 fun value hvalue =>
        CompactType.scripted t haccepted.2 value (h.2 value hvalue)
      rw [h.1]
      exact haccepted.1
  | .map kind key value, haccepted, entries, h =>
      .encodeContainer h.1 (.all fun entry hentry =>
        (CompactType.scripted key haccepted.1 entry.1 (h.2.2.2 entry hentry).1).bind
          (CompactType.scripted value haccepted.2 entry.2 (h.2.2.2 entry hentry).2))
  | .struct fields, haccepted, values, h => Fields.scripted fields haccepted values h
  | .enum variants, haccepted, value, h => by
      have := Variants.scripted variants haccepted.2 0 value h
        (by rw [Nat.zero_add]; exact (variants.index_lt value).trans_le haccepted.1)
      rwa [Nat.zero_add] at this

lemma Fields.scripted : (fields : Fields) → fields.Accepted → (values : fields.Values) →
    fields.Allocated values →
    Scripted (fun _ _ => fields.encode values) (fields.wire values) (fields.nesting values)
  | .nil, _, _, _ => Scripted.pure
  | .cons t rest, haccepted, (value, values), h =>
      (CompactType.scripted t haccepted.1 value h.1).bind
        (Fields.scripted rest haccepted.2 values h.2)

/-- The arm of a variant writes its index and its fields. -/
lemma Variants.scripted : (variants : Variants) → variants.Accepted → (index : ℕ) →
    (value : variants.Value) → variants.Allocated value →
    index + variants.index value < 2 ^ 32 →
    Scripted (fun _ _ => variants.encode index value)
      (encodeVarintLe (index + variants.index value) ++ variants.wire value)
      (variants.nesting value)
  | .cons fields _, haccepted, index, .inl values, h, hindex => by
      have hfields := Fields.scripted fields haccepted.1 values h
      have hmod : index % 2 ^ 32 = index := Nat.mod_eq_of_lt hindex
      refine ((Scripted.varint _).bind hfields).congr ?_ (Nat.zero_max _)
      rw [hmod]
      rfl
  | .cons _ rest, haccepted, index, .inr value, h, hindex => by
      have hnext : index + (rest.index value + 1) = index + 1 + rest.index value := by omega
      rw [Variants.index, hnext] at hindex ⊢
      exact Variants.scripted rest haccepted.2 (index + 1) value h hindex

end

end Types

end RustBinary.Compact
