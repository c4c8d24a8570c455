import RustBinary.Bounded.Decode
import RustBinary.Native.Preflight

/-!
# The allocation ceiling

What a decoded value occupies on the heap, against the bound that `decode_bounded` reports.  The
bound counts as many elements as the collection limit allows, once for each level of the type; a
value has more of them when collections are nested or stand side by side.
-/

namespace RustBinary.Bounded

open Lib Lib.Act Native

/-! ## Types -/

mutual

/-- The types that `DecodeBounded` is implemented for, with what is behind them on the heap. -/
inductive HeapType where
  | primitive (p : Primitive)
  | option (t : HeapType)
  | array (t : HeapType) (n : ℕ)
  | tuple (fields : HeapTypes)
  | string
  | vec (t : HeapType)
  | box (t : HeapType)

inductive HeapTypes where
  | nil
  | cons (t : HeapType) (rest : HeapTypes)

end

mutual

def HeapType.Value : HeapType → Type
  | .primitive p => p.Value
  | .option t => Option t.Value
  | .array t n => Vector t.Value n
  | .tuple fields => fields.Values
  | .string => String
  | .vec t => List t.Value
  | .box t => t.Value

def HeapTypes.Values : HeapTypes → Type
  | .nil => Unit
  | .cons t rest => t.Value × rest.Values

end

/-- `size_of`. -/
class Layout where
  size : HeapType → ℕ
  size_le : ∀ t, size t ≤ isizeMax

section Heap

variable [Layout]

mutual

/-- The bytes of a value on the heap. -/
def HeapType.heap : (t : HeapType) → t.Value → ℕ
  | .primitive _, _ => 0
  | .option _, none => 0
  | .option t, some value => t.heap value
  | .array t _, values => ((Vector.toList values).map t.heap).sum
  | .tuple fields, values => fields.heap values
  | .string, text => (toUtf8 text).length
  | .vec t, values => List.length values * Layout.size t + (List.map t.heap values).sum
  | .box t, value => Layout.size t + t.heap value

def HeapTypes.heap : (fields : HeapTypes) → fields.Values → ℕ
  | .nil, _ => 0
  | .cons t rest, (value, values) => t.heap value + rest.heap values

end

end Heap

/-! ## The constants -/

section Bytes

variable (r : Rates)

mutual

def HeapType.bytes : HeapType → ℕ
  | .primitive p => r.primitive p
  | .option t => r.option t.bytes
  | .array t n => saturatingAdd (saturatingMul t.bytes n) 2
  | .tuple fields => fields.bytes 2
  | .string => u64Max
  | .vec _ => u64Max
  | .box t => t.bytes

def HeapTypes.bytes : HeapTypes → ℕ → ℕ
  | .nil, sum => sum
  | .cons t rest, sum => rest.bytes (saturatingAdd sum t.bytes)

end

end Bytes

mutual

def HeapType.maxDepth : HeapType → ℕ
  | .primitive _ => 0
  | .option t => t.maxDepth
  | .array t _ => depthPlusOne t.maxDepth
  | .tuple fields => depthPlusOne (fields.maxDepth 0)
  | .string => 1
  | .vec t => depthPlusOne t.maxDepth
  | .box t => t.maxDepth

def HeapTypes.maxDepth : HeapTypes → ℕ → ℕ
  | .nil, maximum => maximum
  | .cons t rest, maximum => rest.maxDepth (max maximum t.maxDepth)

end

section Memory

variable [Layout]

mutual

def HeapType.maxAlloc : HeapType → ℕ
  | .primitive _ => 0
  | .option t => t.maxAlloc
  | .array t n => saturatingMul t.maxAlloc n
  | .tuple fields => fields.maxAlloc 0
  | .string => u64Max
  | .vec _ => u64Max
  | .box t => saturatingAdd t.maxAlloc (Layout.size t)

def HeapTypes.maxAlloc : HeapTypes → ℕ → ℕ
  | .nil, sum => sum
  | .cons t rest, sum => rest.maxAlloc (saturatingAdd sum t.maxAlloc)

end

mutual

def HeapType.maxStructuralElement : HeapType → ℕ
  | .primitive _ => 0
  | .option t => t.maxStructuralElement
  | .array t _ => t.maxStructuralElement
  | .tuple fields => fields.maxStructuralElement 0
  -- the bytes of a text are all read from the wire
  | .string => 0
  | .vec t => max (Layout.size t) t.maxStructuralElement
  | .box t => max (Layout.size t) t.maxStructuralElement

def HeapTypes.maxStructuralElement : HeapTypes → ℕ → ℕ
  | .nil, maximum => maximum
  | .cons t rest, maximum => rest.maxStructuralElement (max maximum t.maxStructuralElement)

end

def HeapType.decodeBounded (t : HeapType) : DecodeBounded where
  maxInput := t.bytes inputRates
  maxAlloc := t.maxAlloc
  maxDepth := t.maxDepth
  maxWork := t.bytes workRates
  maxStructuralElement := t.maxStructuralElement

end Memory

/-! ## Static types -/

section Static

variable [Layout]

mutual

/-- `MAX_ALLOC` bounds the heap, as far as it has not saturated. -/
lemma HeapType.caps_maxAlloc : ∀ (t : HeapType) (value : t.Value),
    Caps u64Max t.maxAlloc (t.heap value)
  | .primitive _, _ => Caps.of_le le_rfl
  | .option _, none => Caps.of_le (Nat.zero_le _)
  | .option t, some value => t.caps_maxAlloc value
  | .array t n, values => by
      have hsum : Caps u64Max (min (t.maxAlloc * ((Vector.toList values).map t.heap).length) u64Max)
          ((Vector.toList values).map t.heap).sum :=
        Caps.sum (List.forall_mem_map.mpr fun value _ => t.caps_maxAlloc value)
      have hlength : ((Vector.toList values).map t.heap).length = n := by
        rw [List.length_map]
        exact Vector.length_toList
      rw [hlength] at hsum
      exact hsum
  | .tuple fields, values => by
      have hfields := fields.caps_maxAlloc values (Caps.of_le (le_refl 0))
      rw [Nat.zero_add] at hfields
      exact hfields
  | .string, _ => Nat.min_le_right _ _
  | .vec _, _ => Nat.min_le_right _ _
  | .box t, value => by
      have hbox := (t.caps_maxAlloc value).add (Caps.of_le (le_refl (Layout.size t)))
      rw [Nat.add_comm (t.heap value)] at hbox
      exact hbox

lemma HeapTypes.caps_maxAlloc : ∀ (fields : HeapTypes) (values : fields.Values) {sum n : ℕ},
    Caps u64Max sum n → Caps u64Max (fields.maxAlloc sum) (n + fields.heap values)
  | .nil, _, _, _, h => h
  | .cons t rest, values, _, _, h => by
      obtain ⟨value, values⟩ := values
      have hrest := rest.caps_maxAlloc values (h.add (t.caps_maxAlloc value))
      rw [Nat.add_assoc] at hrest
      exact hrest

end

end Static

/-! ## Values and the trees they are read from -/

/-- The sum of `f` over the values of some entries. -/
def total (f : Tree Token String → ℕ) {kind : Kind} : Forest Token String kind → ℕ
  | .nil => 0
  | .cons _ value rest => f value + total f rest

/-- `R` relates a list of values to the entries of an array, one by one. -/
def Each {α : Type} (R : α → Tree Token String → Prop) :
    List α → Forest Token String .array → Prop
  | [], .nil => True
  | value :: values, .cons _ tree rest => R value tree ∧ Each R values rest
  | _, _ => False

mutual

/-- The values of a type that a tree of tokens can be read as. -/
def HeapType.ReadFrom : (t : HeapType) → t.Value → Tree Token String → Prop
  | .primitive _, _, _ => True
  | .option _, none, tree => tree = .scalar .null
  | .option t, some value, tree => tree ≠ .scalar .null ∧ t.ReadFrom value tree
  | .array t _, values, tree =>
      ∃ entries, tree = .node .array entries ∧ Each t.ReadFrom (Vector.toList values) entries
  | .tuple fields, values, tree =>
      ∃ entries, tree = .node .array entries ∧ fields.ReadFrom values entries
  | .string, text, tree => tree = .scalar (.str text)
  | .vec t, values, tree => ∃ entries, tree = .node .array entries ∧ Each t.ReadFrom values entries
  | .box t, value, tree => t.ReadFrom value tree

def HeapTypes.ReadFrom :
    (fields : HeapTypes) → fields.Values → Forest Token String .array → Prop
  | .nil, _, .nil => True
  | .cons t rest, (value, values), .cons _ tree entries =>
      t.ReadFrom value tree ∧ rest.ReadFrom values entries
  | _, _, _ => False

end

mutual

/-- How many elements of vectors and how many boxes the tree of a value stands for. -/
def HeapType.elements : HeapType → Tree Token String → ℕ
  | .primitive _, _ => 0
  | .option _, .scalar .null => 0
  | .option t, tree => t.elements tree
  | .array t _, .node .array entries => total t.elements entries
  | .tuple fields, .node .array entries => fields.elements entries
  | .string, _ => 0
  | .vec t, .node .array entries => entries.length + total t.elements entries
  | .box t, tree => 1 + t.elements tree
  | _, _ => 0

def HeapTypes.elements : HeapTypes → Forest Token String .array → ℕ
  | .cons t rest, .cons _ tree entries => t.elements tree + rest.elements entries
  | _, _ => 0

end

/-- The bytes of the texts of a tree. -/
def tokenText : Token → ℕ
  | .str text => (toUtf8 text).length
  | _ => 0

mutual

def treeText : Tree Token String → ℕ
  | .scalar token => tokenText token
  | .node _ entries => entriesText entries

def entriesText {kind : Kind} : Forest Token String kind → ℕ
  | .nil => 0
  | .cons _ value rest => treeText value + entriesText rest

end

section Texts

variable [Target] {c : Config}

mutual

/-- The texts are on the wire. -/
lemma treeText_le : ∀ (wire : WireValue) {tree : Tree Token String},
    decodeValue c wire = some tree → treeText tree ≤ (spellValue c wire).length
  | .scalar scalar, tree, h => by
      rw [decodeValue, Lib.Tree.mapOption] at h
      obtain ⟨token, htoken, rfl⟩ := Option.map_eq_some_iff.mp h
      rw [treeText]
      cases scalar with
      | str bytes =>
          obtain ⟨text, htext, rfl⟩ := Option.map_eq_some_iff.mp htoken
          rw [fromUtf8_eq_some.mp htext]
          change (toUtf8 text).length ≤ (tagString :: spellStr c (toUtf8 text)).length
          rw [List.length_cons, spellStr, List.length_append]
          omega
      | int tag word =>
          obtain ⟨number, -, rfl⟩ := Option.map_eq_some_iff.mp htoken
          exact Nat.zero_le _
      | null | bool | f64 | f32 =>
          obtain rfl := Option.some.inj htoken
          exact Nat.zero_le _
  | .node kind entries, tree, h => by
      rw [decodeValue, Lib.Tree.mapOption] at h
      obtain ⟨out, hout, rfl⟩ := Option.map_eq_some_iff.mp h
      have hentries := entriesText_le entries hout
      rw [treeText, spellValue, List.length_cons, List.length_append]
      omega

lemma entriesText_le {kind : Kind} : ∀ (entries : WireEntries kind)
    {out : Forest Token String kind},
    entries.mapOption (WireScalar.token c) fromUtf8 = some out →
    entriesText out ≤ (spellEntries c entries).length
  | .nil, out, h => by
      rw [Forest.mapOption, Option.some.injEq] at h
      rw [← h, entriesText]
      exact Nat.zero_le _
  | .cons key value rest, out, h => by
      obtain ⟨key', value', rest', -, hvalue, hrest, rfl⟩ := Forest.mapOption_cons_eq_some.mp h
      have hle := treeText_le value hvalue
      have hle' := entriesText_le rest hrest
      rw [entriesText, spellEntries, List.length_append, List.length_append]
      omega

end

end Texts

section Heap

variable [Layout]

lemma HeapTypes.le_maxStructuralElement : ∀ (fields : HeapTypes) (maximum : ℕ),
    maximum ≤ fields.maxStructuralElement maximum
  | .nil, _ => le_rfl
  | .cons _ rest, _ => (le_max_left _ _).trans (rest.le_maxStructuralElement _)

omit [Layout] in
/-- A bound on each value is one on all of them. -/
lemma sum_heap_le {α : Type} {R : α → Tree Token String → Prop} {heap : α → ℕ}
    {count : Tree Token String → ℕ} {s : ℕ}
    (h : ∀ value tree, R value tree → heap value ≤ treeText tree + s * count tree) :
    ∀ {values : List α} {entries : Forest Token String .array}, Each R values entries →
      values.length = entries.length ∧
        (values.map heap).sum ≤ entriesText entries + s * total count entries
  | [], .nil, _ => ⟨rfl, Nat.zero_le _⟩
  | value :: values, .cons _ tree rest, hall => by
      obtain ⟨hvalue, hvalues⟩ := hall
      obtain ⟨hlength, hsum⟩ := sum_heap_le h hvalues
      have hheap := h value tree hvalue
      refine ⟨congrArg (· + 1) hlength, ?_⟩
      rw [List.map_cons, List.sum_cons, entriesText, total, Nat.mul_add]
      omega
  | [], .cons _ _ _, h => h.elim
  | _ :: _, .nil, h => h.elim

mutual

/-- The heap of a value: its texts, and at most `MAX_STRUCTURAL_ELEMENT` for each element. -/
lemma HeapType.heap_le : ∀ (t : HeapType) (value : t.Value) (tree : Tree Token String),
    t.ReadFrom value tree →
    t.heap value ≤ treeText tree + t.maxStructuralElement * t.elements tree
  | .primitive _, _, _, _ => Nat.zero_le _
  | .option _, none, _, _ => Nat.zero_le _
  | .option t, some value, tree, ⟨hne, h⟩ => by
      have hle := t.heap_le value tree h
      rw [HeapType.elements]
      · exact hle
      · exact hne
  | .array t _, values, tree, ⟨entries, htree, h⟩ => by
      subst htree
      exact (sum_heap_le t.heap_le h).2
  | .tuple fields, values, tree, ⟨entries, htree, h⟩ => by
      subst htree
      exact fields.heap_le values entries 0 h
  | .string, text, tree, h => by
      subst h
      exact le_rfl
  | .vec t, values, tree, ⟨entries, htree, h⟩ => by
      subst htree
      have hone : ∀ value tree, t.ReadFrom value tree → t.heap value ≤
          treeText tree + max (Layout.size t) t.maxStructuralElement * t.elements tree :=
        fun value tree h => (t.heap_le value tree h).trans
          (Nat.add_le_add_left (Nat.mul_le_mul_right _ (le_max_right _ _)) _)
      obtain ⟨hlength, hsum⟩ := sum_heap_le hone h
      have hbuffer : List.length values * Layout.size t ≤
          max (Layout.size t) t.maxStructuralElement * entries.length := by
        rw [hlength, Nat.mul_comm]
        exact Nat.mul_le_mul_right _ (le_max_left _ _)
      rw [HeapType.heap, HeapType.elements, HeapType.maxStructuralElement, treeText, Nat.mul_add]
      omega
  | .box t, value, tree, h => by
      have hle := t.heap_le value tree h
      have hrest : t.maxStructuralElement * t.elements tree ≤
          max (Layout.size t) t.maxStructuralElement * t.elements tree :=
        Nat.mul_le_mul_right _ (le_max_right _ _)
      have hsize : Layout.size t ≤ max (Layout.size t) t.maxStructuralElement := le_max_left _ _
      rw [HeapType.heap, HeapType.elements, HeapType.maxStructuralElement, Nat.mul_add,
        Nat.mul_one]
      omega

lemma HeapTypes.heap_le : ∀ (fields : HeapTypes) (values : fields.Values)
    (entries : Forest Token String .array) (maximum : ℕ), fields.ReadFrom values entries →
    fields.heap values ≤
      entriesText entries + fields.maxStructuralElement maximum * fields.elements entries
  | .nil, _, .nil, _, _ => Nat.zero_le _
  | .cons t rest, values, .cons key tree entries, maximum, h => by
      obtain ⟨value, values⟩ := values
      obtain ⟨hvalue, hvalues⟩ := h
      have hle := t.heap_le value tree hvalue
      have hle' := rest.heap_le values entries (max maximum t.maxStructuralElement) hvalues
      have hmax : t.maxStructuralElement ≤
          rest.maxStructuralElement (max maximum t.maxStructuralElement) :=
        (le_max_right _ _).trans (rest.le_maxStructuralElement _)
      have hfirst := Nat.mul_le_mul_right (t.elements tree) hmax
      rw [HeapTypes.heap, HeapTypes.elements, HeapTypes.maxStructuralElement, entriesText,
        Nat.mul_add]
      omega
  | .nil, _, .cons _ _ _, _, h => h.elim
  | .cons _ _, _, .nil, _, h => h.elim

end

end Heap

/-! ## The bound that is reported -/

section Reported

variable {T : DecodeBounded} {budget : Budget} {input : Input}

/-- The bound of a type that is not statically bounded is within the budget. -/
lemma byteLimit_add_le (hdynamic : T.staticallyBounded = false) :
    saturatingAdd (T.limits budget).byteLimit
        (saturatingMul (T.limits budget).collectionLimit (perElementCeiling T budget))
      ≤ budget.maxInput + budget.maxAlloc := by
  have hbyte : (T.limits budget).byteLimit ≤ budget.maxInput := by
    change (if budget.maxInput < budget.maxWork then budget.maxInput else budget.maxWork) ≤ _
    split <;> omega
  have hcollection : (T.limits budget).collectionLimit * perElementCeiling T budget
      ≤ budget.maxAlloc := by
    change (if T.staticallyBounded = true then (T.limits budget).byteLimit
      else if perElementCeiling T budget = 0 then (T.limits budget).byteLimit
      else if budget.maxAlloc / perElementCeiling T budget < (T.limits budget).byteLimit then
        budget.maxAlloc / perElementCeiling T budget
      else (T.limits budget).byteLimit) * _ ≤ _
    rw [hdynamic, if_neg Bool.false_ne_true]
    split
    · next hzero => rw [hzero, Nat.mul_zero]; exact Nat.zero_le _
    · split
      · exact Nat.div_mul_le_self _ _
      · next hraw =>
          exact (Nat.mul_le_mul_right _ (Nat.not_lt.mp hraw)).trans (Nat.div_mul_le_self _ _)
  refine (Nat.min_le_left _ _).trans (Nat.add_le_add hbyte ?_)
  exact (Nat.min_le_left _ _).trans hcollection

section Returned

variable {α : Type} {fromNextjson : NextjsonError → Error} {nextdecode : Dec α}

lemma fromSliceWithConsumed_eq_ok {config : Config} {value : α} {consumed : ℕ} :
    fromSliceWithConsumed fromNextjson nextdecode input config = .ok (value, consumed) ↔
      ∃ s, nextdecode (Decoder.new input config) = (.ok value, s) ∧ s.depth = 0 ∧
        s.cursor = consumed := by
  rw [fromSliceWithConsumed]
  rcases nextdecode (Decoder.new input config) with ⟨a | e | _ | _, s⟩
  · by_cases hdepth : s.depth = 0
    · simp [hdepth]
    · simp [hdepth]
  all_goals simp

/-- What `decode_bounded` returns. -/
lemma decodeBounded_eq_ok {decoded : Decoded α}
    (h : decodeBounded fromNextjson nextdecode T input budget = .ok decoded) :
    ∃ s, nextdecode (Decoder.new input (T.limits budget).config) = (.ok decoded.value, s) ∧
      s.cursor = input.bytes.length ∧
      decoded.use.allocBound = if T.staticallyBounded then T.maxAlloc
        else saturatingAdd (T.limits budget).byteLimit
          (saturatingMul (T.limits budget).collectionLimit (perElementCeiling T budget)) := by
  rw [decodeBounded] at h
  split at h
  · cases h
  · split at h
    · cases h
    · split at h
      · cases h
      · dsimp only at h
        rcases hslice : fromSliceWithConsumed fromNextjson nextdecode input
          (T.limits budget).config with ⟨value, consumed⟩ | e | _ | _
        · obtain ⟨s, hdecode, -, rfl⟩ := fromSliceWithConsumed_eq_ok.mp hslice
          rw [hslice] at h
          dsimp only at h
          split at h
          · cases h
          · next hall =>
              obtain rfl := Outcome.ok.inj h
              exact ⟨s, hdecode, not_not.mp hall, rfl⟩
        all_goals
          rw [hslice] at h
          cases h

end Returned

end Reported

/-! ## The ceiling -/

/-- The deserializer of a type reads token by token: where it succeeds, a caller that does so gets
a tree that the value can be read from, and ends at the same byte.  What it returns is in memory. -/
structure HeapType.Reads [Target] [Layout] (t : HeapType) (nextdecode : Dec t.Value) : Prop where
  tree : ∀ {input config value s}, nextdecode (Decoder.new input config) = (.ok value, s) →
    ∃ n tree u, Decoder.readValue n (Decoder.new input config) = (.ok tree, u) ∧
      u.cursor = s.cursor ∧ t.ReadFrom value tree
  heap_le : ∀ {input config value s}, nextdecode (Decoder.new input config) = (.ok value, s) →
    t.heap value ≤ u64Max

/-- The input is the encoding of a value, in the standard profile. -/
def Encodes [Target] (input : Input) (tree : Tree Token String) : Prop :=
  ∃ wire, Fits .standard wire ∧ decodeValue .standard wire = some tree ∧
    input.bytes = spellValue .standard wire

/-- An input encodes one value at most. -/
lemma Encodes.eq [Target] {input : Input} {a b : Tree Token String} (ha : Encodes input a)
    (hb : Encodes input b) : a = b := by
  obtain ⟨wire, hfits, hdecode, hbytes⟩ := ha
  obtain ⟨wire', hfits', hdecode', hbytes'⟩ := hb
  have hspell : spellValue .standard wire ++ [] = spellValue .standard wire' ++ [] := by
    rw [← hbytes, ← hbytes']
  obtain ⟨rfl, -⟩ := spellValue_inj wire wire' hfits hfits' hspell
  exact Option.some.inj (hdecode.symm.trans hdecode')

/-- The heap of the value is within the reported bound, and that is within the budget. -/
structure Ceiling [Layout] (t : HeapType) (budget : Budget) (decoded : Decoded t.Value) : Prop where
  heap_le : t.heap decoded.value ≤ decoded.use.allocBound
  allocBound_le : decoded.use.allocBound ≤ budget.maxInput + budget.maxAlloc

/-- A statically bounded type has a `MAX_ALLOC` within the budget; a value of another type has no
more elements than the collection limit allows on the levels of the type together. -/
def HeapType.Counted [Target] [Layout] (t : HeapType) (budget : Budget) (input : Input) : Prop :=
  if t.decodeBounded.staticallyBounded then t.maxAlloc ≤ budget.maxInput + budget.maxAlloc
  else ∀ tree, Encodes input tree → t.elements tree ≤
    depthEff t.decodeBounded budget * (t.decodeBounded.limits budget).collectionLimit

section Ceiling

variable [Layout]

mutual

lemma HeapType.maxStructuralElement_le : ∀ t : HeapType, t.maxStructuralElement ≤ isizeMax
  | .primitive _ => Nat.zero_le _
  | .option t => t.maxStructuralElement_le
  | .array t _ => t.maxStructuralElement_le
  | .tuple fields => fields.maxStructuralElement_le (Nat.zero_le _)
  | .string => Nat.zero_le _
  | .vec t => Nat.max_le.mpr ⟨Layout.size_le t, t.maxStructuralElement_le⟩
  | .box t => Nat.max_le.mpr ⟨Layout.size_le t, t.maxStructuralElement_le⟩

lemma HeapTypes.maxStructuralElement_le : ∀ (fields : HeapTypes) {maximum : ℕ},
    maximum ≤ isizeMax → fields.maxStructuralElement maximum ≤ isizeMax
  | .nil, _, h => h
  | .cons t rest, _, h =>
      rest.maxStructuralElement_le (Nat.max_le.mpr ⟨h, t.maxStructuralElement_le⟩)

end

/-- The heap of a value with no more elements than are counted. -/
lemma heap_le_of_elements_le {t : HeapType} {budget : Budget} {value : t.Value}
    {tree : Tree Token String} {limit collection : ℕ} (hread : t.ReadFrom value tree)
    (htext : treeText tree ≤ limit) (hmemory : t.heap value ≤ u64Max)
    (hcount : t.elements tree ≤ depthEff t.decodeBounded budget * collection) :
    t.heap value ≤ saturatingAdd limit
      (saturatingMul collection (perElementCeiling t.decodeBounded budget)) := by
  have hstructural : structuralElement t.decodeBounded budget = t.maxStructuralElement := by
    refine if_neg (Nat.ne_of_lt (t.maxStructuralElement_le.trans_lt ?_))
    decide
  have hceiling : Caps u64Max (perElementCeiling t.decodeBounded budget)
      (t.maxStructuralElement * depthEff t.decodeBounded budget) := by
    rw [perElementCeiling, hstructural]
    exact Nat.le_refl _
  have hall := (Caps.of_le htext).add (hceiling.mul_left collection)
  refine (hall.anti ?_).le hmemory
  refine (t.heap_le value tree hread).trans (Nat.add_le_add_left ?_ _)
  calc t.maxStructuralElement * t.elements tree
      ≤ t.maxStructuralElement * (depthEff t.decodeBounded budget * collection) :=
        Nat.mul_le_mul_left _ hcount
    _ = collection * (t.maxStructuralElement * depthEff t.decodeBounded budget) := by ring

end Ceiling

/-- What a token-by-token reader has read, all of an input, is what the input encodes. -/
lemma encodes_of_readValue [Target] {limits : EnforcedLimits} {input : Input} {n : ℕ}
    {tree : Tree Token String} {s : Decoder}
    (h : Decoder.readValue n (Decoder.new input limits.config) = (.ok tree, s))
    (hcursor : s.cursor = input.bytes.length) :
    Encodes input tree ∧ treeText tree ≤ limits.byteLimit := by
  obtain ⟨wire, hfits, hdecode, -, hhere, rfl⟩ := readValue_new_iff.mp ⟨n, h⟩
  obtain ⟨hslice, hlimit⟩ := hhere
  have hlength : (spellValue limits.config wire).length = input.bytes.length :=
    (Nat.zero_add _).symm.trans hcursor
  have hspell : spellValue limits.config wire = spellValue .standard wire :=
    spellValue_limits limits wire
  refine ⟨⟨wire, (fits_congr rfl wire).mp hfits, ?_, ?_⟩, ?_⟩
  · rw [← hdecode]
    exact (decodeValue_congr rfl rfl wire).symm
  · obtain ⟨-, -, heq⟩ := slice_eq_some.mp hslice
    rw [show (Decoder.new input limits.config).cursor = 0 from rfl, Nat.zero_add, Nat.sub_zero,
      hlength] at heq
    have htake : input.bytes.take input.bytes.length = spellValue limits.config wire := heq
    rw [List.take_length] at htake
    rw [htake, hspell]
  · have htext := treeText_le wire hdecode
    have hbyte := hlimit limits.byteLimit rfl
    rw [show (Decoder.new input limits.config).cursor = 0 from rfl, Nat.zero_add] at hbyte
    exact htext.trans hbyte

/-- **The allocation ceiling.**  For a statically bounded type the heap and the bound are within the
ceiling exactly if `MAX_ALLOC` is within the budget; for the others they are if the value has no
more elements than are counted for it. -/
theorem allocation_ceiling [Target] [Layout] (fromNextjson : NextjsonError → Error) (t : HeapType)
    {nextdecode : Dec t.Value} (hreads : t.Reads nextdecode) {input : Input} {budget : Budget}
    {decoded : Decoded t.Value}
    (h : decodeBounded fromNextjson nextdecode t.decodeBounded input budget = .ok decoded) :
    (t.Counted budget input → Ceiling t budget decoded) ∧
      (t.decodeBounded.staticallyBounded = true →
        Ceiling t budget decoded → t.Counted budget input) := by
  obtain ⟨s, hdecode, hcursor, hbound⟩ := decodeBounded_eq_ok h
  have hmemory := hreads.heap_le hdecode
  cases hstatic : t.decodeBounded.staticallyBounded with
  | true =>
      rw [hstatic, if_pos rfl] at hbound
      have hcounted : t.Counted budget input ↔ t.maxAlloc ≤ budget.maxInput + budget.maxAlloc := by
        rw [HeapType.Counted, if_pos hstatic]
      rw [hcounted]
      refine ⟨fun halloc => ⟨?_, ?_⟩, fun _ hceiling => ?_⟩
      · rw [hbound]
        exact (t.caps_maxAlloc decoded.value).le hmemory
      · rw [hbound]
        exact halloc
      · have hle := hceiling.allocBound_le
        rw [hbound] at hle
        exact hle
  | false =>
      rw [hstatic, if_neg Bool.false_ne_true] at hbound
      refine ⟨fun hcounted => ⟨?_, ?_⟩, fun hfalse => absurd hfalse Bool.false_ne_true⟩
      · obtain ⟨n, tree, u, hread, hend, hfrom⟩ := hreads.tree hdecode
        obtain ⟨hencodes, htext⟩ := encodes_of_readValue hread (hend.trans hcursor)
        rw [HeapType.Counted, if_neg (by rw [hstatic]; exact Bool.false_ne_true)] at hcounted
        rw [hbound]
        exact heap_le_of_elements_le hfrom htext hmemory (hcounted tree hencodes)
      · rw [hbound]
        exact byteLimit_add_le hstatic

/-! ## A reader -/

section Reader

def entriesOf : Tree Token String → Option (Forest Token String .array)
  | .node .array entries => some entries
  | _ => none

def textOf : Tree Token String → Option String
  | .scalar (.str text) => some text
  | _ => none

lemma entriesOf_eq_some {tree : Tree Token String} {entries : Forest Token String .array}
    (h : entriesOf tree = some entries) : tree = .node .array entries := by
  rw [entriesOf.eq_def] at h
  split at h
  · rw [Option.some.inj h]
  · cases h

lemma textOf_eq_some {tree : Tree Token String} {text : String} (h : textOf tree = some text) :
    tree = .scalar (.str text) := by
  rw [textOf.eq_def] at h
  split at h
  · rw [Option.some.inj h]
  · cases h

section Values

variable {α : Type} (f : Tree Token String → Option α)

def readOption : Tree Token String → Option (Option α)
  | .scalar .null => some none
  | tree => (f tree).map some

/-- The values that `f` reads from some entries. -/
def readEach {kind : Kind} : Forest Token String kind → Option (List α)
  | .nil => some []
  | .cons _ tree rest => do
      let value ← f tree
      let values ← readEach rest
      pure (value :: values)

variable {f} {R : α → Tree Token String → Prop}

lemma each_readEach (h : ∀ value tree, f tree = some value → R value tree) :
    ∀ (entries : Forest Token String .array) {values : List α},
      readEach f entries = some values → Each R values entries
  | .nil, values, heach => by
      rw [readEach, Option.some.injEq] at heach
      subst heach
      trivial
  | .cons _ tree rest, values, heach => by
      rw [readEach] at heach
      obtain ⟨value, hvalue, heach⟩ := Option.bind_eq_some_iff.mp heach
      obtain ⟨values', hvalues, heach⟩ := Option.bind_eq_some_iff.mp heach
      obtain rfl := Option.some.inj heach
      exact ⟨h value tree hvalue, each_readEach h rest hvalues⟩

end Values

-- what a tree is as a primitive value
variable (leaf : (p : Primitive) → Tree Token String → Option p.Value)

mutual

/-- The value of a type that a tree of tokens is read as. -/
def HeapType.ofTree : (t : HeapType) → Tree Token String → Option t.Value
  | .primitive p, tree => leaf p tree
  | .option t, tree => readOption t.ofTree tree
  | .array t n, tree => do
      let entries ← entriesOf tree
      let values ← readEach t.ofTree entries
      if h : values.toArray.size = n then some ⟨values.toArray, h⟩ else none
  | .tuple fields, tree => do
      let entries ← entriesOf tree
      fields.ofEntries entries
  | .string, tree => textOf tree
  | .vec t, tree => do
      let entries ← entriesOf tree
      readEach t.ofTree entries
  | .box t, tree => t.ofTree tree

def HeapTypes.ofEntries :
    (fields : HeapTypes) → Forest Token String .array → Option fields.Values
  | .nil, .nil => some ()
  | .cons t rest, .cons _ tree entries => do
      let value ← t.ofTree tree
      let values ← rest.ofEntries entries
      pure (value, values)
  | _, _ => none

end

variable {leaf}

mutual

lemma HeapType.readFrom_ofTree : ∀ (t : HeapType) (value : t.Value) (tree : Tree Token String),
    t.ofTree leaf tree = some value → t.ReadFrom value tree
  | .primitive _, _, _, _ => trivial
  | .option t, value, tree, h => by
      rw [HeapType.ofTree, readOption.eq_def] at h
      split at h
      · obtain rfl := Option.some.inj h
        rfl
      · next hne =>
          obtain ⟨value, hvalue, rfl⟩ := Option.map_eq_some_iff.mp h
          exact ⟨hne, t.readFrom_ofTree value tree hvalue⟩
  | .array t n, values, tree, h => by
      obtain ⟨entries, hentries, h⟩ := Option.bind_eq_some_iff.mp h
      obtain ⟨elements, heach, h⟩ := Option.bind_eq_some_iff.mp h
      split at h
      · obtain rfl := Option.some.inj h
        exact ⟨entries, entriesOf_eq_some hentries,
          each_readEach t.readFrom_ofTree entries heach⟩
      · cases h
  | .tuple fields, values, tree, h => by
      obtain ⟨entries, hentries, h⟩ := Option.bind_eq_some_iff.mp h
      exact ⟨entries, entriesOf_eq_some hentries, fields.readFrom_ofEntries values entries h⟩
  | .string, text, tree, h => textOf_eq_some h
  | .vec t, values, tree, h => by
      obtain ⟨entries, hentries, h⟩ := Option.bind_eq_some_iff.mp h
      exact ⟨entries, entriesOf_eq_some hentries, each_readEach t.readFrom_ofTree entries h⟩
  | .box t, value, tree, h => t.readFrom_ofTree value tree h

lemma HeapTypes.readFrom_ofEntries : ∀ (fields : HeapTypes) (values : fields.Values)
    (entries : Forest Token String .array),
    fields.ofEntries leaf entries = some values → fields.ReadFrom values entries
  | .nil, _, .nil, _ => trivial
  | .cons t rest, values, .cons _ tree entries, h => by
      obtain ⟨value, hvalue, h⟩ := Option.bind_eq_some_iff.mp h
      obtain ⟨values', hvalues, h⟩ := Option.bind_eq_some_iff.mp h
      obtain rfl := Option.some.inj h
      exact ⟨t.readFrom_ofTree value tree hvalue, rest.readFrom_ofEntries values' entries hvalues⟩
  | .nil, _, .cons _ _ _, h => nomatch h
  | .cons _ _, _, .nil, h => nomatch h

end

section Read

variable [Target] [Layout]

variable (leaf) in
/-- Reads a tree of tokens, and the value of the type from it; the process ends where there is no
memory for the value. -/
def HeapType.read (t : HeapType) : Dec t.Value := fun s => (do
  let tree ← Decoder.readValue s.input.bytes.length
  match t.ofTree leaf tree with
  | some value => if t.heap value ≤ u64Max then pure value else panic
  | none => throw (.custom "unexpected value")) s

lemma HeapType.reads_read (t : HeapType) : t.Reads (t.read leaf) := by
  have hread : ∀ {input config value s},
      t.read leaf (Decoder.new input config) = (.ok value, s) →
      ∃ tree, Decoder.readValue input.bytes.length (Decoder.new input config) = (.ok tree, s) ∧
        t.ofTree leaf tree = some value ∧ t.heap value ≤ u64Max := by
    intro input config value s h
    obtain ⟨tree, u, htree, h⟩ := bind_eq_ok.mp h
    cases hvalue : t.ofTree leaf tree with
    | none =>
        rw [hvalue] at h
        cases h
    | some value' =>
        rw [hvalue] at h
        dsimp only at h
        split at h
        · next hmemory =>
            obtain ⟨hok, rfl⟩ := Prod.mk.inj h
            obtain rfl := Outcome.ok.inj hok
            exact ⟨tree, htree, hvalue, hmemory⟩
        · cases h
  refine ⟨fun {input config value s} h => ?_, fun {input config value s} h => ?_⟩
  · obtain ⟨tree, htree, hvalue, -⟩ := hread h
    exact ⟨_, tree, s, htree, rfl, t.readFrom_ofTree value tree hvalue⟩
  · obtain ⟨-, -, -, hmemory⟩ := hread h
    exact hmemory

end Read

end Reader

section Witness

local instance target64 : Target := ⟨true⟩

/-- The sizes of the types below, on a target of 64 bits. -/
local instance layout64 : Layout where
  size
    | .primitive (.unsigned .w64) => 8
    | .option (.primitive (.unsigned .w64)) => 16
    | .vec _ => 24
    | _ => 0
  size_le t := by split <;> decide

def ofWord : (p : Primitive) → Tree Token String → Option p.Value
  | .unsigned w, .scalar (.number (.u64 value)) =>
      if value < 2 ^ w.bits then some (BitVec.ofNat w.bits value) else none
  | _, _ => none

/-- `Vec<Vec<Option<u64>>>`. -/
def nested : HeapType := .vec (.vec (.option (.primitive (.unsigned .w64))))

/-- `[[None, None], [None, None]]`. -/
def twoByTwo : Input := ⟨[0x0a, 0x0a, 0, 0, 0xff, 0x0a, 0, 0, 0xff, 0xff], by decide⟩

/-- Two rows of two leaves. -/
def square {σ κ : Type} (leaf : σ) : Tree σ κ :=
  let row : Tree σ κ := .node .array (.cons () (.scalar leaf) (.cons () (.scalar leaf) .nil))
  .node .array (.cons () row (.cons () row .nil))

/-- `Box<u64>`. -/
def boxed : HeapType := .box (.primitive (.unsigned .w64))

/-- What a decoded value occupies, and what is reported. -/
def report (t : HeapType) : Outcome DecodeError (Decoded t.Value) → Option (ℕ × ℕ)
  | .ok decoded => some (t.heap decoded.value, decoded.use.allocBound)
  | _ => none

lemma report_eq_some {t : HeapType} {out : Outcome DecodeError (Decoded t.Value)} {heap bound : ℕ}
    (h : report t out = some (heap, bound)) :
    ∃ decoded, out = .ok decoded ∧ t.heap decoded.value = heap ∧
      decoded.use.allocBound = bound := by
  rw [report.eq_def] at h
  split at h
  · next decoded =>
      obtain ⟨hheap, hbound⟩ := Prod.mk.inj (Option.some.inj h)
      exact ⟨decoded, rfl, hheap, hbound⟩
  · cases h

/-- The limit of the collections is `2` and the bound `10 + 2 * (24 * 2)`, but there are `6`
elements and not `4`; and the `MAX_ALLOC` of a box is not compared with the budget. -/
theorem allocation_ceiling_exceeded :
    (∃ decoded, decodeBounded (fun _ => .invalidUtf8) (nested.read ofWord) nested.decodeBounded
        twoByTwo ⟨10, 96, 2, 10, 64⟩ = .ok decoded ∧
      decoded.use.allocBound < nested.heap decoded.value) ∧
    ∃ decoded, decodeBounded (fun _ => .invalidUtf8) (boxed.read ofWord) boxed.decodeBounded
        ⟨[3, 0], by decide⟩ ⟨2, 0, 0, 11, 64⟩ = .ok decoded ∧
      2 + 0 < decoded.use.allocBound := by
  have hnested : report nested (decodeBounded (fun _ => .invalidUtf8) (nested.read ofWord)
      nested.decodeBounded twoByTwo ⟨10, 96, 2, 10, 64⟩) = some (112, 106) := by
    decide +kernel
  have hboxed : report boxed (decodeBounded (fun _ => .invalidUtf8) (boxed.read ofWord)
      boxed.decodeBounded ⟨[3, 0], by decide⟩ ⟨2, 0, 0, 11, 64⟩) = some (8, 8) := by
    decide +kernel
  obtain ⟨decoded, hok, hheap, hbound⟩ := report_eq_some hnested
  obtain ⟨decoded', hok', -, hbound'⟩ := report_eq_some hboxed
  refine ⟨⟨decoded, hok, ?_⟩, decoded', hok', ?_⟩
  · rw [hheap, hbound]
    decide
  · rw [hbound']
    decide

/-- Under a budget with room for more elements. -/
theorem allocation_ceiling_twoByTwo :
    ∃ decoded, decodeBounded (fun _ => .invalidUtf8) (nested.read ofWord) nested.decodeBounded
        twoByTwo ⟨10, 480, 2, 10, 64⟩ = .ok decoded ∧
      Ceiling nested ⟨10, 480, 2, 10, 64⟩ decoded := by
  have hreport : report nested (decodeBounded (fun _ => .invalidUtf8) (nested.read ofWord)
      nested.decodeBounded twoByTwo ⟨10, 480, 2, 10, 64⟩) = some (112, 490) := by
    decide +kernel
  obtain ⟨decoded, hok, -⟩ := report_eq_some hreport
  have hencodes : Encodes twoByTwo (square .null) := by
    refine ⟨square .null, ?_, rfl, by decide⟩
    repeat constructor
  have hcounted : nested.Counted ⟨10, 480, 2, 10, 64⟩ twoByTwo := by
    rw [HeapType.Counted, if_neg (by decide)]
    intro tree htree
    rw [htree.eq hencodes]
    decide
  exact ⟨decoded, hok, (allocation_ceiling _ nested nested.reads_read hok).1 hcounted⟩

end Witness

end RustBinary.Bounded
