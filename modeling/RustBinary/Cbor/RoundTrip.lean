import RustBinary.Cbor.Encoder
import RustBinary.Cbor.LengthForm

/-!
# Reading what the CBOR encoder wrote

Whatever tree of events the encoder accepts, it writes as a data item of indefinite containers
(`Renders`), within the limits that the decoder checks.  The calls that match the events are
those that read this item, so the decoder gets the events back: integers as the number that has
their value, an `f32` widened, a character as a string of one.
-/

namespace RustBinary.Cbor

open Lib Lib.Act
open Native (Scalar)

/-! ## The calls that match a tree -/

/-- The number that an integer is read as. -/
def normalNumber (value : ℤ) : Number :=
  if 0 ≤ value then if value < 2 ^ 64 then .u64 value.toNat else .u128 value.toNat
  else if -2 ^ 63 ≤ value then .i64 value else .i128 value

def Leaf.call : Leaf → CborCall
  | scalar .null => .required .unit
  | scalar (.bool _) => .required .bool
  | scalar (.u64 _ _) => .required .number
  | scalar (.u128 _ _) => .required .number
  | scalar (.i64 _ _ _) => .required .number
  | scalar (.i128 _ _ _) => .required .number
  | scalar (.f64 _ _) => .required .number
  | scalar (.f32 _ _) => .required .number
  | scalar (.str _) => .required .string
  | scalar (.char _) => .required .string
  | bytes _ => .bytes

/-- What is read back: an `f32` has been widened, a character is a string of one. -/
def Leaf.answer : Leaf → Answer
  | scalar .null => .unit
  | scalar (.bool value) => .bool value
  | scalar (.u64 value _) => .number (normalNumber value)
  | scalar (.u128 value _) => .number (normalNumber value)
  | scalar (.i64 value _ _) => .number (normalNumber value)
  | scalar (.i128 value _ _) => .number (normalNumber value)
  | scalar (.f64 bits _) => .number (.f64 bits)
  | scalar (.f32 bits _) => .number (.f64 (f32ToF64 bits))
  | scalar (.str value) => .string value
  | scalar (.char value) => .string (String.singleton value)
  | bytes value => .bytes value

def containerKind : Kind → ContainerKind
  | .array => .array
  | .object => .object

/-- The call that reads a key. -/
def entryCalls : {kind : Kind} → Lib.KeyOf String kind → List CborCall
  | .array, _ => []
  | .object, _ => [.required .objectKey]

def entryAnswers : {kind : Kind} → Lib.KeyOf String kind → List Answer
  | .array, _ => []
  | .object, text => [.key (some text)]

mutual

/-- The calls that read a tree, with one separator call for each entry. -/
def treeCalls : Tree Leaf String → List CborCall
  | .scalar value => [value.call]
  | .node kind entries =>
      openCalls (containerKind kind) entries.length ++
        (forestCalls entries ++ [closeCall (containerKind kind)])

def forestCalls {kind : Kind} : Forest Leaf String kind → List CborCall
  | .nil => []
  | .cons key value rest =>
      entryCalls key ++ (treeCalls value ++ sepCall (containerKind kind) :: forestCalls rest)

end

mutual

/-- The answers that are the tree. -/
def treeAnswers : Tree Leaf String → List Answer
  | .scalar value => [value.answer]
  | .node kind entries =>
      openRets (containerKind kind) entries.length ++ (forestAnswers entries ++ [.unit])

/-- A separator answers whether there is another entry. -/
def forestAnswers {kind : Kind} : Forest Leaf String kind → List Answer
  | .nil => []
  | .cons key value rest =>
      entryAnswers key ++ (treeAnswers value ++ .bool (rest.length != 0) :: forestAnswers rest)

end

/-! ## Items of a tree -/

/-- The item reads as the tree does, and its containers charge their elements. -/
structure Renders (tree : Tree Leaf String) (item : Item) : Prop where
  calls : item.calls = treeCalls tree
  rets : item.rets = treeAnswers tree
  charges : item.Charges

structure RendersAll {kind : Kind} (entries : Forest Leaf String kind)
    (elements : Elements (containerKind kind)) : Prop where
  length : elements.length = entries.length
  calls : elements.calls = forestCalls entries
  rets : elements.rets false = forestAnswers entries
  charges : elements.Charges

/-- The key of an element that renders an entry. -/
def RendersKey : {kind : Kind} → Lib.KeyOf String kind → KeyOf (containerKind kind) → Prop
  | .array, _, _ => True
  | .object, text, key => Text.value key = text

lemma RendersAll.nil {kind : Kind} :
    RendersAll (Forest.nil : Forest Leaf String kind) (Elements.nil) :=
  ⟨rfl, rfl, rfl, trivial⟩

lemma RendersAll.cons {kind : Kind} {text : Lib.KeyOf String kind}
    {key : KeyOf (containerKind kind)} {value : Tree Leaf String} {item : Item}
    {entries : Forest Leaf String kind} {rest : Elements (containerKind kind)}
    (hkey : RendersKey text key) (hitem : Renders value item) (hrest : RendersAll entries rest) :
    RendersAll (.cons text value entries) (.cons key item rest) := by
  have hcalls : keyCalls key = entryCalls text := by cases kind <;> rfl
  have hrets : keyRets key = entryAnswers text := by
    cases kind with
    | array => rfl
    | object =>
        have hvalue : Text.value key = text := hkey
        rw [← hvalue]
        rfl
  refine ⟨?_, ?_, ?_, hitem.charges, hrest.charges⟩
  · rw [Elements.length, Forest.length, hrest.length]
  · rw [Elements.calls, forestCalls, hcalls, hitem.calls, hrest.calls]
  · rw [Elements.rets, forestAnswers, hrets, hitem.rets, hrest.rets, hrest.length, Bool.or_false]

lemma Renders.node {kind : Kind} {entries : Forest Leaf String kind}
    {elements : Elements (containerKind kind)} (h : RendersAll entries elements) :
    Renders (.node kind entries) (.container (containerKind kind) .indefinite elements) := by
  refine ⟨?_, ?_, h.charges, fun hne => absurd rfl hne⟩
  · rw [Item.calls, treeCalls, h.calls, h.length]
  · rw [Item.rets, treeAnswers, h.rets, h.length]

/-! ## Heads and magnitudes -/

lemma leading_or : ∀ major < 8, ∀ low < 32,
    UInt8.ofNat major <<< 5 ||| UInt8.ofNat low = UInt8.ofNat (2 ^ 5 * major + low) := by
  decide

/-- The head that the encoder writes is the shortest one. -/
lemma headBytes_eq {major n : ℕ} (hmajor : major < 8) (hn : n < 2 ^ 64) :
    ∃ width : Width, n < width.bound ∧
      CborEncoder.headBytes (UInt8.ofNat major) n = head major width n := by
  have hlead : ∀ low < 32, UInt8.ofNat major <<< 5 ||| UInt8.ofNat low
      = UInt8.ofNat (2 ^ 5 * major + low) := leading_or major hmajor
  rw [CborEncoder.headBytes]
  split_ifs with h1 h2 h3 h4
  · exact ⟨.immediate, h1, by rw [hlead n (by omega)]; rfl⟩
  · refine ⟨.one, Nat.lt_succ_of_le h2, ?_⟩
    rw [show (24 : UInt8) = UInt8.ofNat 24 from rfl, hlead 24 (by decide)]
    simp [head, beBytes, leBytes]
  · refine ⟨.two, Nat.lt_succ_of_le h3, ?_⟩
    rw [show (25 : UInt8) = UInt8.ofNat 25 from rfl, hlead 25 (by decide)]
    rfl
  · refine ⟨.four, Nat.lt_succ_of_le h4, ?_⟩
    rw [show (26 : UInt8) = UInt8.ofNat 26 from rfl, hlead 26 (by decide)]
    rfl
  · refine ⟨.eight, hn, ?_⟩
    rw [show (27 : UInt8) = UInt8.ofNat 27 from rfl, hlead 27 (by decide)]
    rfl

/-- A string that the encoder writes is one of definite length. -/
lemma exists_chunk {major : ℕ} (hmajor : major < 8) {bytes : List UInt8}
    (h : bytes.length ≤ u64Max) : ∃ chunk : Chunk, chunk.bytes = bytes ∧
      chunk.encode major = CborEncoder.headBytes (UInt8.ofNat major) bytes.length ++ bytes := by
  obtain ⟨width, hfits, hhead⟩ := headBytes_eq hmajor (Nat.lt_succ_of_le h)
  exact ⟨⟨bytes, width, hfits⟩, rfl, by rw [hhead]; rfl⟩

/-- Zeros in front do not count. -/
lemma beNat_drop {bs : List UInt8} {n : ℕ} (h : ∀ b ∈ bs.take n, b = 0) :
    beNat (bs.drop n) = beNat bs := by
  have hzero : bs.take n = List.replicate (bs.take n).length 0 := List.eq_replicate_of_mem h
  have hnat : leNat (List.replicate (bs.take n).length 0) = 0 := leNat_replicate_zero _
  conv_rhs => rw [← List.take_append_drop n bs, hzero]
  rw [beNat, beNat, List.reverse_append, List.reverse_replicate, leNat_append, hnat, Nat.mul_zero,
    Nat.add_zero]

/-- The bytes in front of the magnitude are zeros. -/
lemma zero_of_mem_take (bs : List UInt8) :
    ∀ b ∈ bs.take ((bs.findIdx? (· != 0)).getD (bs.length - 1)), b = 0 := by
  intro b hb
  cases hfirst : bs.findIdx? (· != 0) with
  | none =>
      have := List.findIdx?_eq_none_iff.mp hfirst b (List.mem_of_mem_take hb)
      simpa using this
  | some first =>
      rw [hfirst, Option.getD_some] at hb
      obtain ⟨i, hi, rfl⟩ := List.getElem_of_mem hb
      rw [List.length_take] at hi
      rw [List.getElem_take]
      obtain ⟨_, _, hbefore⟩ := List.findIdx?_eq_some_iff_getElem.mp hfirst
      simpa using hbefore i (Nat.lt_min.mp hi).1

lemma beNat_magnitude {value : ℕ} (h : value < 2 ^ 128) :
    beNat (CborEncoder.magnitude value) = value := by
  have hlt : value < 256 ^ 16 := h.trans_eq (by decide)
  rw [CborEncoder.magnitude, beNat_drop (zero_of_mem_take _), beNat_beBytes hlt]

lemma length_magnitude (value : ℕ) : (CborEncoder.magnitude value).length ≤ 16 := by
  rw [CborEncoder.magnitude, List.length_drop, length_beBytes]
  exact Nat.sub_le _ _

/-! ## What each method writes -/

namespace CborEncoder

variable {c : Config}

/-- The encoder after writing `bs`. -/
def wrote (s : CborEncoder (List UInt8)) (bs : List UInt8) : CborEncoder (List UInt8) :=
  { s with writer := s.writer ++ bs, written := s.written + bs.length }

/-- The bytes that the encoder has written are counted, and within the limit. -/
structure InBounds (c : Config) (s : CborEncoder (List UInt8)) : Prop where
  config_eq : s.config = c
  written_eq : s.written = s.writer.length
  le_max : s.written ≤ u64Max
  le_limit : ∀ l, c.limit = some l → s.written ≤ l

/-- A successful `m` has written `bs`, which has the property `P`. -/
def Writes (c : Config) (m : Enc (List UInt8) Unit) (bs : List UInt8) (P : Prop) : Prop :=
  ∀ s t u, InBounds c s → m s = (.ok u, t) → t = wrote s bs ∧ InBounds c t ∧ P

lemma orFail_eq_ok {α : Type} {m : Act (CborEncoder (List UInt8)) Error α}
    {s t : CborEncoder (List UInt8)} {a : α} : orFail m s = (.ok a, t) ↔ m s = (.ok a, t) := by
  rw [orFail, onErr]
  rcases m s with ⟨_ | _ | _ | _, u⟩ <;> simp [fail]

namespace Writes

variable {m n : Enc (List UInt8) Unit} {xs ys : List UInt8} {P Q : Prop}

lemma emit (bs : List UInt8) :
    Writes c (orFail (CborEncoder.emit bs)) bs (bs.length ≤ u64Max) := by
  intro s t u hs h
  rw [orFail_eq_ok, CborEncoder.emit, get_bind_run, bind_eq_ok] at h
  obtain ⟨next, s₁, hnext, h⟩ := h
  obtain ⟨hnext, hs₁⟩ := okOr_eq_ok.mp hnext
  rw [bind_eq_ok, hs₁] at h
  obtain ⟨⟨⟩, s₂, hlimit, h⟩ := h
  obtain ⟨hlimit, hs₂⟩ := atMost_eq_ok.mp hlimit
  rw [hs₂] at h
  rw [checkedAdd] at hnext
  split at hnext
  · next hmax =>
      obtain rfl := Option.some.inj hnext
      obtain ⟨-, rfl⟩ := Prod.mk.inj h
      refine ⟨rfl, ⟨hs.config_eq, ?_, hmax, ?_⟩, by omega⟩
      · show s.written + bs.length = (s.writer ++ bs).length
        rw [List.length_append, hs.written_eq]
      · rw [← hs.config_eq]
        exact hlimit
  · simp at hnext

lemma bind (hm : Writes c m xs P) (hn : Writes c n ys Q) :
    Writes c (m >>= fun _ => n) (xs ++ ys) (P ∧ Q) := by
  intro s u v hs h
  obtain ⟨⟨⟩, t, hfirst, hsecond⟩ := bind_eq_ok.mp h
  obtain ⟨rfl, ht, hP⟩ := hm s t _ hs hfirst
  obtain ⟨rfl, hu, hQ⟩ := hn _ u _ ht hsecond
  refine ⟨?_, hu, hP, hQ⟩
  simp only [wrote, List.append_assoc, List.length_append, Nat.add_assoc]

lemma imp (hm : Writes c m xs P) (h : P → Q) : Writes c m xs Q := by
  intro s t u hs hrun
  obtain ⟨ht, hbounds, hP⟩ := hm s t u hs hrun
  exact ⟨ht, hbounds, h hP⟩

end Writes

/-- A successful `m` has written an item that reads as `tree`, whatever the depth. -/
def WritesItem (c : Config) (m : Enc (List UInt8) Unit) (tree : Tree Leaf String) : Prop :=
  ∀ s t u, InBounds c s → m s = (.ok u, t) → ∃ item : Item, Renders tree item ∧
    t = wrote s item.encode ∧ InBounds c t ∧ ∀ depth, item.Within c depth

lemma Writes.item {m : Enc (List UInt8) Unit} {bs : List UInt8} {P : Prop}
    {tree : Tree Leaf String} (hm : Writes c m bs P)
    (h : P → ∃ item : Item, item.encode = bs ∧ Renders tree item ∧ ∀ depth, item.Within c depth) :
    WritesItem c m tree := by
  intro s t u hs hrun
  obtain ⟨ht, hbounds, hP⟩ := hm s t u hs hrun
  obtain ⟨item, rfl, hitem, hwithin⟩ := h hP
  exact ⟨item, hitem, ht, hbounds, hwithin⟩

lemma writes_head (major : UInt8) (argument : ℕ) :
    Writes c (CborEncoder.head major argument) (headBytes major argument) True :=
  (Writes.emit _).imp fun _ => trivial

/-- A string, written as its length and its bytes. -/
lemma writes_string (major : UInt8) (bytes : List UInt8) :
    Writes c (do
        CborEncoder.head major bytes.length
        orFail (CborEncoder.emit bytes))
      (headBytes major bytes.length ++ bytes) (bytes.length ≤ u64Max) :=
  ((writes_head major bytes.length).bind (Writes.emit bytes)).imp fun h => h.2

lemma writes_writeText (value : String) :
    Writes c (writeText value) (headBytes 3 (toUtf8 value).length ++ toUtf8 value)
      ((toUtf8 value).length ≤ u64Max) := writes_string 3 (toUtf8 value)

lemma exists_text {value : String} (h : (toUtf8 value).length ≤ u64Max) :
    ∃ text : Text, text.value = value ∧
      text.form.encode 3 = headBytes 3 (toUtf8 value).length ++ toUtf8 value := by
  obtain ⟨chunk, hbytes, hencode⟩ := exists_chunk (by decide : 3 < 8) h
  exact ⟨⟨value, .definite chunk, hbytes⟩, rfl, hencode⟩

/-! ## Integers -/

lemma normalNumber_natCast (value : ℕ) :
    normalNumber value = if value < 2 ^ 64 then .u64 value else .u128 value := by
  rw [normalNumber, if_pos (Int.natCast_nonneg value), Int.toNat_natCast]
  by_cases h : value < 2 ^ 64
  · rw [if_pos h, if_pos (by exact_mod_cast h)]
  · rw [if_neg h, if_neg (by exact_mod_cast h)]

/-- A magnitude beyond 64 bits is written as a bignum. -/
lemma writes_bignum {value : ℕ} (negative : Bool) (h : value < 2 ^ 128) :
    ∃ numeral : Numeral,
      numeral.value = (if negative then .i128 (-1 - asI128 value) else .u128 value) ∧
      Writes c (bignum (if negative then 3 else 2) value) numeral.encode True := by
  obtain ⟨chunk, hbytes, hencode⟩ := exists_chunk (by decide : 2 < 8)
    ((length_magnitude value).trans (by decide))
  have hshort : chunk.bytes.length ≤ 16 := by
    rw [hbytes]
    exact length_magnitude value
  have hvalue : beNat chunk.bytes = value := by rw [hbytes, beNat_magnitude h]
  have hrun : Writes c (bignum (if negative then 3 else 2) value)
      (headBytes 6 (if negative then 3 else 2) ++ chunk.encode 2) True := by
    have hstring : chunk.encode 2 =
        headBytes 2 (magnitude value).length ++ magnitude value := hencode
    rw [hstring, bignum]
    exact ((writes_head 6 _).bind (writes_string 2 (magnitude value))).imp fun _ => trivial
  cases negative with
  | false =>
      refine ⟨.bignum false .immediate chunk hshort, ?_, hrun⟩
      rw [Numeral.value, hvalue, if_neg Bool.false_ne_true]
  | true =>
      refine ⟨.bignum true .immediate chunk hshort, ?_, hrun⟩
      rw [Numeral.value, hvalue, if_pos rfl]

lemma writes_unsigned {value : ℕ} (h : value < 2 ^ 128) :
    ∃ numeral : Numeral, numeral.value = normalNumber value ∧
      Writes c (unsigned value) numeral.encode True := by
  rw [normalNumber_natCast, unsigned]
  by_cases hle : value ≤ u64Max
  · have hlt : value < 2 ^ 64 := Nat.lt_succ_of_le hle
    obtain ⟨width, hfits, hhead⟩ := headBytes_eq (by decide : 0 < 8) hlt
    rw [if_pos hle, if_pos hlt]
    refine ⟨.unsigned ⟨value, width, hfits⟩, rfl, ?_⟩
    rw [Numeral.encode, ← hhead]
    exact writes_head 0 value
  · have hge : ¬ value < 2 ^ 64 := fun hlt => hle (Nat.le_of_lt_succ hlt)
    rw [if_neg hle, if_neg hge]
    exact writes_bignum false h

lemma writes_signed {value : ℤ} (hlow : -2 ^ 127 ≤ value) (hhigh : value < 2 ^ 127) :
    ∃ numeral : Numeral, numeral.value = normalNumber value ∧
      Writes c (signed value) numeral.encode True := by
  rw [signed]
  by_cases hsign : 0 ≤ value
  · rw [if_pos hsign]
    obtain ⟨n, rfl⟩ := Int.eq_ofNat_of_zero_le hsign
    rw [Int.toNat_natCast]
    exact writes_unsigned (by omega)
  · rw [if_neg hsign]
    obtain ⟨n, hn⟩ : ∃ n : ℕ, n = (-1 - value).toNat := ⟨_, rfl⟩
    have hback : -1 - (n : ℤ) = value := by omega
    dsimp only
    rw [← hn, normalNumber, if_neg hsign]
    by_cases hle : n ≤ u64Max
    · obtain ⟨width, hfits, hhead⟩ := headBytes_eq (by decide : 1 < 8) (Nat.lt_succ_of_le hle)
      rw [if_pos hle]
      refine ⟨.negative ⟨n, width, hfits⟩, ?_, ?_⟩
      · rw [Numeral.value]
        dsimp only
        rw [hback]
        by_cases hsmall : -2 ^ 63 ≤ value
        · rw [if_pos hsmall, if_pos (by omega)]
        · rw [if_neg hsmall, if_neg (by omega)]
      · rw [Numeral.encode, ← hhead]
        exact writes_head 1 n
    · have hlarge : 2 ^ 64 ≤ n := Nat.lt_of_not_le hle
      have hfit : n < 2 ^ 127 := by omega
      obtain ⟨numeral, hvalue, hrun⟩ :=
        writes_bignum (c := c) true (hfit.trans (by decide : 2 ^ 127 < 2 ^ 128))
      rw [if_neg hle, if_neg (by omega)]
      refine ⟨numeral, ?_, hrun⟩
      rw [hvalue, if_pos rfl, asI128, if_pos hfit, hback]

/-! ## Scalars -/

lemma writesItem_number {m : Enc (List UInt8) Unit} {leaf : Leaf} {number : Number}
    (hcall : leaf.call = .required .number) (hanswer : leaf.answer = .number number)
    (h : ∃ numeral : Numeral, numeral.value = number ∧ Writes c m numeral.encode True) :
    WritesItem c m (.scalar leaf) := by
  obtain ⟨numeral, rfl, hrun⟩ := h
  refine hrun.item fun _ => ⟨.number numeral, rfl, ⟨?_, ?_, trivial⟩, fun _ => trivial⟩
  · rw [Item.calls, treeCalls, hcall]
  · rw [Item.rets, treeAnswers, hanswer]

lemma writesItem_text {value : String} {leaf : Leaf} (hcall : leaf.call = .required .string)
    (hanswer : leaf.answer = .string value) : WritesItem c (writeText value) (.scalar leaf) := by
  refine (writes_writeText value).item fun hlen => ?_
  obtain ⟨text, htext, hencode⟩ := exists_text hlen
  refine ⟨.text text, hencode, ⟨?_, ?_, trivial⟩, fun _ => trivial⟩
  · rw [Item.calls, treeCalls, hcall]
  · rw [Item.rets, treeAnswers, hanswer, htext]

/-- A scalar is written as an item that reads as it. -/
lemma writesItem_leaf (leaf : Leaf) : WritesItem c leaf.write (.scalar leaf) := by
  rcases leaf with ⟨_ | value | ⟨value, fits⟩ | ⟨value, fits⟩ | ⟨value, low, high⟩ |
    ⟨value, low, high⟩ | ⟨bits, fits⟩ | ⟨bits, fits⟩ | value | value⟩ | value
  · exact (Writes.emit [0xf6]).item fun _ => ⟨.null, rfl, ⟨rfl, rfl, trivial⟩, fun _ => trivial⟩
  · refine (Writes.emit [if value then 0xf5 else 0xf4]).item fun _ =>
      ⟨.bool value, ?_, ⟨rfl, rfl, trivial⟩, fun _ => trivial⟩
    cases value <;> rfl
  · exact writesItem_number rfl rfl (writes_unsigned (by omega))
  · exact writesItem_number rfl rfl (writes_unsigned fits)
  · exact writesItem_number rfl rfl (writes_signed (by omega) (by omega))
  · exact writesItem_number rfl rfl (writes_signed low high)
  · refine writesItem_number rfl rfl ⟨.double bits fits, rfl, ?_⟩
    exact ((Writes.emit [0xfb]).bind (Writes.emit (beBytes 8 bits))).imp fun _ => trivial
  · refine writesItem_number rfl rfl ⟨.single bits fits, rfl, ?_⟩
    exact ((Writes.emit [0xfa]).bind (Writes.emit (beBytes 4 bits))).imp fun _ => trivial
  · exact writesItem_text rfl rfl
  · exact writesItem_text rfl rfl
  · refine (writes_string 2 value).item fun hlen => ?_
    obtain ⟨chunk, hbytes, hencode⟩ := exists_chunk (by decide : 2 < 8) hlen
    refine ⟨.bytes (.definite chunk), hencode, ⟨rfl, ?_, trivial⟩, fun _ => trivial⟩
    rw [Item.rets, treeAnswers, Leaf.answer, ByteString.content, hbytes]

/-! ## Containers -/

/-- No elements are counted at the depths that are not open. -/
structure Cleared (s : CborEncoder (List UInt8)) : Prop where
  depth_le : s.depth ≤ maxDepth
  counts_zero : ∀ (i : ℕ) (hi : i < maxDepth), s.depth ≤ i → s.counts[i] = 0

/-- The encoder with `k` more elements counted at the level `d`. -/
def withElements (s : CborEncoder (List UInt8)) (d k : ℕ) (hd : d < maxDepth) :
    CborEncoder (List UInt8) :=
  { s with counts := s.counts.set d (s.counts[d] + k) hd }

section Steps

variable {s t : CborEncoder (List UInt8)} {u : Unit}

lemma beginContainer_ok {kind : Kind} (hs : InBounds c s)
    (h : beginContainer kind s = (.ok u, t)) :
    s.depth < maxDepth ∧
      t = { wrote s (openHead (containerKind kind).major) with depth := s.depth + 1 } ∧
      InBounds c t := by
  have hbegin : (beginContainer kind : Enc (List UInt8) Unit) =
      enterContainer >>= fun _ => orFail (emit (openHead (containerKind kind).major)) := by
    cases kind <;> rfl
  rw [hbegin, bind_eq_ok] at h
  obtain ⟨⟨⟩, v, henter, h⟩ := h
  rw [enterContainer, get_bind_run] at henter
  split at henter
  · simp [fail] at henter
  · next hdepth =>
      obtain ⟨-, rfl⟩ := Prod.mk.inj henter
      have hv : InBounds c { s with depth := s.depth + 1 } :=
        ⟨hs.config_eq, hs.written_eq, hs.le_max, hs.le_limit⟩
      obtain ⟨rfl, ht, -⟩ := Writes.emit _ _ t _ hv h
      exact ⟨Nat.lt_of_not_le hdepth, rfl, ht⟩

lemma countElement_ok {d : ℕ} (hd : d < maxDepth) (hdepth : s.depth = d + 1) (hs : InBounds c s)
    (h : countElement s = (.ok u, t)) :
    (∀ l, c.collectionLimit = some l → s.counts[d] + 1 ≤ l) ∧ t = withElements s d 1 hd := by
  rw [countElement, get_bind_run, hdepth] at h
  dsimp only at h
  rw [dif_pos hd] at h
  obtain ⟨count, _, hcount, h⟩ := bind_eq_ok.mp h
  rw [orFail_eq_ok, okOr_eq_ok, checkedAdd] at hcount
  obtain ⟨hcount, rfl⟩ := hcount
  split at hcount
  · obtain rfl := Option.some.inj hcount
    obtain ⟨⟨⟩, _, hlimit, h⟩ := bind_eq_ok.mp h
    rw [orFail_eq_ok, atMost_eq_ok, hs.config_eq] at hlimit
    obtain ⟨hlimit, rfl⟩ := hlimit
    simp only [modify_run, Prod.mk.injEq, true_and] at h
    exact ⟨hlimit, h.symm⟩
  · simp at hcount

lemma exitContainer_ok {d : ℕ} (hd : d < maxDepth) (hdepth : s.depth = d + 1)
    (hs : InBounds c s) (h : exitContainer s = (.ok u, t)) :
    t = wrote { s with depth := d, counts := s.counts.set d 0 hd } [0xff] ∧ InBounds c t := by
  rw [exitContainer, get_bind_run, hdepth] at h
  dsimp only at h
  rw [dif_pos hd, modify_bind_run] at h
  have hbounds : InBounds c { s with depth := d, counts := s.counts.set d 0 hd } :=
    ⟨hs.config_eq, hs.written_eq, hs.le_max, hs.le_limit⟩
  obtain ⟨rfl, ht, -⟩ := Writes.emit [0xff] _ t _ hbounds h
  exact ⟨rfl, ht⟩

lemma beginEntry_ok {d : ℕ} (hd : d < maxDepth) {kind : Kind} {text : Lib.KeyOf String kind}
    (hdepth : s.depth = d + 1) (hs : InBounds c s) (h : beginEntry text s = (.ok u, t)) :
    ∃ key : KeyOf (containerKind kind), RendersKey text key ∧
      (∀ l, c.collectionLimit = some l → s.counts[d] + 1 ≤ l) ∧
      t = wrote (withElements s d 1 hd) (keyBytes key) ∧ InBounds c t := by
  have hbounds : InBounds c (withElements s d 1 hd) :=
    ⟨hs.config_eq, hs.written_eq, hs.le_max, hs.le_limit⟩
  cases kind with
  | array =>
      obtain ⟨hlimit, rfl⟩ := countElement_ok hd hdepth hs h
      refine ⟨(), trivial, hlimit, ?_, hbounds⟩
      simp [wrote, withElements, containerKind, keyBytes]
  | object =>
      obtain ⟨⟨⟩, v, hcount, h⟩ := bind_eq_ok.mp h
      obtain ⟨hlimit, rfl⟩ := countElement_ok hd hdepth hs hcount
      obtain ⟨rfl, ht, hlen⟩ := writes_writeText text _ t _ hbounds h
      obtain ⟨key, hkey, hencode⟩ := exists_text hlen
      refine ⟨key, hkey, hlimit, ?_, ht⟩
      rw [← hencode]
      rfl

end Steps

/-- Writing one entry and then the rest is writing all of them. -/
lemma wrote_withElements (s : CborEncoder (List UInt8)) {d k m : ℕ} (hd : d < maxDepth)
    (xs ys zs : List UInt8) :
    wrote (withElements (wrote (wrote (withElements s d k hd) xs) ys) d m hd) zs
      = wrote (withElements s d (k + m) hd) (xs ++ (ys ++ zs)) := by
  simp only [wrote, withElements, Vector.set_set, Vector.getElem_set_self, List.append_assoc,
    List.length_append, Nat.add_assoc]

/-- A container that has been opened and closed again leaves its level cleared. -/
lemma wrote_container (s : CborEncoder (List UInt8)) {d k : ℕ} (hd : d < maxDepth)
    (hdepth : s.depth = d) (hzero : s.counts[d] = 0) (opening bs : List UInt8)
    (opened : CborEncoder (List UInt8))
    (hopened : opened =
      wrote (withElements { wrote s opening with depth := s.depth + 1 } d k hd) bs) :
    wrote { opened with depth := d, counts := opened.counts.set d 0 hd } [0xff]
      = wrote s (opening ++ (bs ++ [0xff])) := by
  have hcounts : (s.counts.set d (s.counts[d] + k) hd).set d 0 hd = s.counts := by
    rw [Vector.set_set]
    nth_rewrite 1 [← hzero]
    exact Vector.set_getElem_self hd
  subst hopened hdepth
  simp only [wrote, withElements, hcounts, List.append_assoc, List.length_append, Nat.add_assoc]

mutual

/-- A tree is written as an item that reads as it, within the limits. -/
lemma writeTree_ok : ∀ (tree : Tree Leaf String) {s t : CborEncoder (List UInt8)} {u : Unit},
    InBounds c s → Cleared s → writeTree tree s = (.ok u, t) →
    ∃ item : Item, Renders tree item ∧ t = wrote s item.encode ∧ InBounds c t ∧
      item.Within c s.depth
  | .scalar leaf, s, t, u, hs, _, h => by
      obtain ⟨item, hitem, rfl, ht, hwithin⟩ := writesItem_leaf leaf s t u hs h
      exact ⟨item, hitem, rfl, ht, hwithin _⟩
  | .node kind entries, s, u, _, hs, hclear, h => by
      have hend : (endContainer kind : Enc (List UInt8) Unit) = exitContainer := by
        cases kind <;> rfl
      rw [writeTree, hend] at h
      obtain ⟨⟨⟩, t₁, hbegin, h⟩ := bind_eq_ok.mp h
      obtain ⟨⟨⟩, t₂, hentries, hexit⟩ := bind_eq_ok.mp h
      obtain ⟨hd, rfl, hs₁⟩ := beginContainer_ok hs hbegin
      have hclear₁ : Cleared
          { wrote s (openHead (containerKind kind).major) with depth := s.depth + 1 } := by
        refine ⟨hd, fun i hi hle => hclear.counts_zero i hi ?_⟩
        have : s.depth + 1 ≤ i := hle
        omega
      obtain ⟨elements, helements, rfl, hs₂, hwithin, hlimit⟩ :=
        writeForest_ok entries s.depth hd rfl hs₁ hclear₁ hentries
      obtain ⟨rfl, ht⟩ := exitContainer_ok hd rfl hs₂ hexit
      have hzero : s.counts[s.depth] = 0 := hclear.counts_zero s.depth hd (Nat.le_refl _)
      refine ⟨_, Renders.node helements, ?_, ht, hd, fun l hl => ?_, trivial, hwithin⟩
      · exact wrote_container s hd rfl hzero _ _ _ rfl
      · rw [helements.length]
        rcases Nat.eq_zero_or_pos entries.length with hnil | hpos
        · omega
        · have hle : s.counts[s.depth] + entries.length ≤ l := hlimit hpos l hl
          omega

lemma writeForest_ok {kind : Kind} : ∀ (entries : Forest Leaf String kind)
    {s t : CborEncoder (List UInt8)} {u : Unit} (d : ℕ) (hd : d < maxDepth), s.depth = d + 1 →
    InBounds c s → Cleared s → writeForest entries s = (.ok u, t) →
    ∃ elements : Elements (containerKind kind), RendersAll entries elements ∧
      t = wrote (withElements s d entries.length hd) elements.encode ∧ InBounds c t ∧
      elements.Within c s.depth ∧
      (0 < entries.length → ∀ l, c.collectionLimit = some l → s.counts[d] + entries.length ≤ l)
  | .nil, s, t, u, d, hd, hdepth, hs, hclear, h => by
      rw [writeForest] at h
      obtain ⟨-, rfl⟩ := Prod.mk.inj h
      refine ⟨.nil, RendersAll.nil, ?_, hs, trivial, by simp [Forest.length]⟩
      simp [wrote, withElements, Forest.length, Elements.encode]
  | .cons text value rest, s, u, _, d, hd, hdepth, hs, hclear, h => by
      rw [writeForest] at h
      obtain ⟨⟨⟩, t₁, hkey, h⟩ := bind_eq_ok.mp h
      obtain ⟨⟨⟩, t₂, hvalue, hrest⟩ := bind_eq_ok.mp h
      obtain ⟨key, hrenders, hone, rfl, hs₁⟩ := beginEntry_ok hd hdepth hs hkey
      have hclear₁ : Cleared (wrote (withElements s d 1 hd) (keyBytes key)) := by
        refine ⟨hclear.depth_le, fun i hi hle => ?_⟩
        have hle : s.depth ≤ i := hle
        simp only [wrote, withElements]
        rw [Vector.getElem_set_ne _ _ (by omega)]
        exact hclear.counts_zero i hi hle
      obtain ⟨item, hitem, rfl, hs₂, hitemWithin⟩ := writeTree_ok value hs₁ hclear₁ hvalue
      have hclear₂ : Cleared (wrote (wrote (withElements s d 1 hd) (keyBytes key)) item.encode) :=
        ⟨hclear₁.depth_le, hclear₁.counts_zero⟩
      have hdepth₂ : (wrote (wrote (withElements s d 1 hd) (keyBytes key)) item.encode).depth
          = d + 1 := hdepth
      obtain ⟨elements, helements, rfl, ht, hrestWithin, hlimit⟩ :=
        writeForest_ok rest d hd hdepth₂ hs₂ hclear₂ hrest
      have hcount : (wrote (wrote (withElements s d 1 hd) (keyBytes key))
          item.encode).counts[d] = s.counts[d] + 1 := Vector.getElem_set_self hd
      refine ⟨.cons key item elements, RendersAll.cons hrenders hitem helements, ?_, ht,
        ⟨hitemWithin, hrestWithin⟩, ?_⟩
      · rw [wrote_withElements, Forest.length, Nat.add_comm 1 rest.length, Elements.encode]
      · intro _ l hl
        rw [Forest.length]
        rcases Nat.eq_zero_or_pos rest.length with hnil | hpos
        · have := hone l hl
          omega
        · have := hlimit hpos l hl
          omega

end

lemma inBounds_new (config : Config) : InBounds config (new [] config) :=
  ⟨rfl, rfl, Nat.zero_le _, fun _ _ => Nat.zero_le _⟩

lemma cleared_new (config : Config) : Cleared (new [] config) := by
  refine ⟨Nat.zero_le _, fun i hi _ => ?_⟩
  simp [new]

/-- What `finish` accepts is an item that reads as the tree. -/
lemma finish_ok {fromNextjson : NextjsonError → Error} {tree : Tree Leaf String}
    {n : ℕ} {s : CborEncoder (List UInt8)} (h : finish fromNextjson tree (new [] c) = (.ok n, s)) :
    ∃ item : Item, Renders tree item ∧ s.writer = item.encode ∧ n = item.encode.length ∧
      n ≤ u64Max ∧ (∀ l, c.limit = some l → n ≤ l) ∧ item.Within c 0 := by
  rw [finish] at h
  split at h
  · next t heq =>
      obtain ⟨item, hitem, rfl, ht, hwithin⟩ :=
        writeTree_ok tree (inBounds_new c) (cleared_new c) heq
      obtain ⟨hn, rfl⟩ := Prod.mk.inj h
      have hdepth : (wrote (new [] c) item.encode).depth = 0 := rfl
      rw [if_neg (fun hne => hne hdepth)] at hn
      cases hn
      have hwritten : (wrote (new [] c) item.encode).written = item.encode.length := Nat.zero_add _
      exact ⟨item, hitem, rfl, hwritten, ht.le_max, ht.le_limit, hwithin⟩
  · simp at h
  · simp at h
  · simp at h

end CborEncoder

variable (fromNextjson : NextjsonError → Error) (narrow : Number → Option UInt8)

/-- **Event-tree round trip.** From the bytes written for a tree that the encoder accepts, the
calls that match the tree get it back; they take all of these bytes, and leave a decoder that
is otherwise as it has started, outside of every container. -/
theorem finish_roundTrip {config : Config} {tree : Tree Leaf String} {n : ℕ}
    {s : CborEncoder (List UInt8)}
    (h : CborEncoder.finish fromNextjson tree (.new [] config) = (.ok n, s)) :
    s.writer.length = n ∧ n ≤ u64Max ∧ ∀ input : Input, s.writer <+: input.bytes →
      run (step narrow) (treeCalls tree) (CborDecoder.new input config) =
        ((treeAnswers tree).map .ok, { CborDecoder.new input config with cursor := n }) := by
  obtain ⟨item, hitem, hwriter, rfl, hmax, hlimit, hwithin⟩ := CborEncoder.finish_ok h
  refine ⟨congrArg List.length hwriter, hmax, fun input hinput => ?_⟩
  rw [hwriter] at hinput
  have hrun := run_item_new narrow hinput hwithin hlimit hitem.charges
  have hafter : item.after (CborDecoder.new input config) =
      { CborDecoder.new input config with cursor := item.encode.length } := by
    rw [Item.after]
    split <;> simp [CborDecoder.advance, CborDecoder.charge, CborDecoder.new, CborDecoder.chargeTop]
  rw [← hitem.calls, ← hitem.rets, hrun, hafter]

section Witness

/-- An object with one entry, the array `[null, 2^64, -2, "é", h'00']`. -/
def sampleTree : Tree Leaf String :=
  .node .object (.cons "a" (.node .array (.cons () (.scalar (.scalar .null))
    (.cons () (.scalar (.scalar (.u128 (2 ^ 64) (by decide))))
      (.cons () (.scalar (.scalar (.i64 (-2) (by decide) (by decide))))
        (.cons () (.scalar (.scalar (.char 'é')))
          (.cons () (.scalar (.bytes [0])) .nil)))))) .nil)

theorem finish_roundTrip_sampleTree :
    ∃ input : Input, input.bytes.length = 24 ∧
      run (step narrowUnsigned) (treeCalls sampleTree) (CborDecoder.new input .standard) =
        ((treeAnswers sampleTree).map .ok,
          { CborDecoder.new input .standard with cursor := 24 }) := by
  obtain ⟨result, hresult⟩ : ∃ result, result =
    CborEncoder.finish (fun _ => .custom "") sampleTree (.new ([] : List UInt8) .standard) :=
      ⟨_, rfl⟩
  have hok : result.1 = .ok 24 := by
    rw [hresult]
    decide +kernel
  have h : CborEncoder.finish (fun _ => .custom "") sampleTree (.new ([] : List UInt8) .standard)
      = (.ok 24, result.2) := by
    rw [← hresult, ← hok]
  obtain ⟨hlen, hmax, hrun⟩ := finish_roundTrip _ narrowUnsigned h
  exact ⟨⟨result.2.writer, hlen.trans_le hmax⟩, hlen, hrun _ List.prefix_rfl⟩

end Witness

end RustBinary.Cbor
