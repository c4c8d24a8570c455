import RustBinary.Cbor.Reading

/-!
# Items and their twins of indefinite length

The twin of an item has the same values, with every container of indefinite length.  It is
read by the same calls and has the same answers.  This file has the twin, the items that a
configuration admits (`Item.Within`), and what decides whether an item reads as its twin
does: which elements are charged to the container that holds them (`Item.Charges`).
-/

namespace RustBinary.Cbor

open Lib

/-! ## Items -/

/-- Reading the item charges an element to the container that holds it. -/
def Item.charged : Item → Bool
  | .none => false
  | .bytes _ => false
  | .some item => item.charged
  | _ => true

/-- The number of elements that are not charged. -/
def Elements.uncharged {kind : ContainerKind} : Elements kind → ℕ
  | .nil => 0
  | .cons _ item rest => rest.uncharged + if item.charged then 0 else 1

mutual

/-- No definite container in the item directly holds an element that is not charged. -/
def Item.Charges : Item → Prop
  | .some item => item.Charges
  | .container _ framing elements =>
      elements.Charges ∧ (framing ≠ .indefinite → elements.uncharged = 0)
  | _ => True

def Elements.Charges {kind : ContainerKind} : Elements kind → Prop
  | .nil => True
  | .cons _ item rest => item.Charges ∧ rest.Charges

end

/-- The item is a null, which `option_tag` reads as a missing value. -/
def Item.isNull : Item → Bool
  | .null => true
  | .none => true
  | .some item => item.isNull
  | _ => false

/-- The framing can say that there are `n` elements. -/
def Framing.Fits (framing : Framing) (n : ℕ) : Prop :=
  match framing with
  | definite width => n < width.bound
  | indefinite => True

instance : (framing : Framing) → (n : ℕ) → Decidable (framing.Fits n)
  | .definite width, n => inferInstanceAs (Decidable (n < width.bound))
  | .indefinite, _ => inferInstanceAs (Decidable True)

/-- The remaining count that a container has beyond the elements that are there. -/
def Framing.surplus : Framing → Option ℕ
  | definite _ => some 0
  | indefinite => none

mutual

/-- At depth `depth` the item is within the limits of `config`; the lengths of its definite
containers can be written, and a value that is there is not a null. -/
def Item.Within (config : Config) (depth : ℕ) : Item → Prop
  | .some item => item.isNull = false ∧ item.Within config depth
  | .container _ framing elements =>
      depth < maxDepth ∧ (∀ l, config.collectionLimit = some l → elements.length ≤ l) ∧
        framing.Fits elements.length ∧ elements.Within config (depth + 1)
  | _ => True

def Elements.Within (config : Config) (depth : ℕ) {kind : ContainerKind} :
    Elements kind → Prop
  | .nil => True
  | .cons _ item rest => item.Within config depth ∧ rest.Within config depth

end

mutual

/-- The twin of the item: every container has indefinite length. -/
def Item.indefinite : Item → Item
  | .some item => .some item.indefinite
  | .container kind _ elements => .container kind .indefinite elements.indefinite
  | .null => .null
  | .none => .none
  | .bool value => .bool value
  | .number value => .number value
  | .text value => .text value
  | .bytes value => .bytes value

def Elements.indefinite {kind : ContainerKind} : Elements kind → Elements kind
  | .nil => .nil
  | .cons key item rest => .cons key item.indefinite rest.indefinite

end

/-! ## The twin -/

@[simp] lemma Elements.length_indefinite {kind : ContainerKind} :
    (elements : Elements kind) → elements.indefinite.length = elements.length
  | .nil => rfl
  | .cons _ _ rest => congrArg (· + 1) rest.length_indefinite

@[simp] lemma Item.isNull_indefinite : (item : Item) → item.indefinite.isNull = item.isNull
  | .some item => item.isNull_indefinite
  | .container _ _ _ => rfl
  | .null => rfl
  | .none => rfl
  | .bool _ => rfl
  | .number _ => rfl
  | .text _ => rfl
  | .bytes _ => rfl

mutual

/-- The twin is read by the same calls. -/
theorem Item.calls_indefinite : (item : Item) → item.indefinite.calls = item.calls
  | .some item => by
      rw [Item.indefinite, Item.calls, Item.calls, item.calls_indefinite]
  | .container kind framing elements => by
      rw [Item.indefinite, Item.calls, Item.calls, elements.calls_indefinite,
        elements.length_indefinite]
  | .null => rfl
  | .none => rfl
  | .bool _ => rfl
  | .number _ => rfl
  | .text _ => rfl
  | .bytes _ => rfl

theorem Elements.calls_indefinite {kind : ContainerKind} :
    (elements : Elements kind) → elements.indefinite.calls = elements.calls
  | .nil => rfl
  | .cons key item rest => by
      rw [Elements.indefinite, Elements.calls, Elements.calls, item.calls_indefinite,
        rest.calls_indefinite]

end

mutual

/-- The twin has the same answers. -/
theorem Item.rets_indefinite : (item : Item) → item.indefinite.rets = item.rets
  | .some item => by
      rw [Item.indefinite, Item.rets, Item.rets, item.rets_indefinite]
  | .container kind framing elements => by
      rw [Item.indefinite, Item.rets, Item.rets, elements.rets_indefinite,
        elements.length_indefinite]
  | .null => rfl
  | .none => rfl
  | .bool _ => rfl
  | .number _ => rfl
  | .text _ => rfl
  | .bytes _ => rfl

theorem Elements.rets_indefinite {kind : ContainerKind} (last : Bool) :
    (elements : Elements kind) → elements.indefinite.rets last = elements.rets last
  | .nil => rfl
  | .cons key item rest => by
      rw [Elements.indefinite, Elements.rets, Elements.rets, item.rets_indefinite,
        rest.rets_indefinite, rest.length_indefinite]

end

mutual

theorem Item.charges_indefinite : (item : Item) → item.indefinite.Charges
  | .some item => item.charges_indefinite
  | .container _ _ elements => ⟨elements.charges_indefinite, fun h => absurd rfl h⟩
  | .null => trivial
  | .none => trivial
  | .bool _ => trivial
  | .number _ => trivial
  | .text _ => trivial
  | .bytes _ => trivial

theorem Elements.charges_indefinite {kind : ContainerKind} :
    (elements : Elements kind) → elements.indefinite.Charges
  | .nil => trivial
  | .cons _ item rest => ⟨item.charges_indefinite, rest.charges_indefinite⟩

end

mutual

theorem Item.Within.indefinite {config : Config} {depth : ℕ} :
    {item : Item} → item.Within config depth → item.indefinite.Within config depth
  | .some item, h => ⟨item.isNull_indefinite.trans h.1, Item.Within.indefinite h.2⟩
  | .container _ _ elements, ⟨hdepth, hlimit, _, helements⟩ =>
      ⟨hdepth, fun l hl => elements.length_indefinite.trans_le (hlimit l hl), trivial,
        Elements.Within.indefinite helements⟩
  | .null, _ => trivial
  | .none, _ => trivial
  | .bool _, _ => trivial
  | .number _, _ => trivial
  | .text _, _ => trivial
  | .bytes _, _ => trivial

theorem Elements.Within.indefinite {config : Config} {depth : ℕ} {kind : ContainerKind} :
    {elements : Elements kind} → elements.Within config depth →
      elements.indefinite.Within config depth
  | .nil, _ => trivial
  | .cons _ _ _, h => ⟨Item.Within.indefinite h.1, Elements.Within.indefinite h.2⟩

end

mutual

theorem Item.length_rets : (item : Item) → item.rets.length = item.calls.length
  | .some item => by
      rw [Item.rets, Item.calls, List.length_cons, List.length_cons, item.length_rets]
  | .container kind framing elements => by
      have hopen : ∀ n, (openRets kind n).length = (openCalls kind n).length := by
        intro n
        cases kind <;> cases n <;> rfl
      simp only [Item.rets, Item.calls, List.length_append, hopen, elements.length_rets,
        List.length_singleton]
  | .null => rfl
  | .none => rfl
  | .bool _ => rfl
  | .number _ => rfl
  | .text _ => rfl
  | .bytes _ => rfl

theorem Elements.length_rets {kind : ContainerKind} (last : Bool) :
    (elements : Elements kind) → (elements.rets last).length = elements.calls.length
  | .nil => rfl
  | .cons key item rest => by
      have hkey : (keyRets key).length = (keyCalls key).length := by cases kind <;> rfl
      simp only [Elements.rets, Elements.calls, List.length_append, List.length_cons, hkey,
        item.length_rets,
        rest.length_rets]

end

/-- The last answer of a container that is not empty matters. -/
lemma Elements.rets_ne {kind : ContainerKind} :
    (elements : Elements kind) → elements.length ≠ 0 → elements.rets true ≠ elements.rets false
  | .nil, h => absurd rfl h
  | .cons key item rest, _ => by
      intro heq
      simp only [rets, List.append_cancel_left_eq, List.cons.injEq, Answer.bool.injEq] at heq
      obtain ⟨hsep, hrest⟩ := heq
      by_cases hzero : rest.length = 0
      · simp [hzero] at hsep
      · exact rest.rets_ne hzero hrest

lemma Elements.length_ne_zero {kind : ContainerKind} :
    (elements : Elements kind) → elements.uncharged ≠ 0 → elements.length ≠ 0
  | .nil, h => absurd rfl h
  | .cons _ _ rest, _ => Nat.succ_ne_zero rest.length

/-! ## First bytes -/

/-- A head that is not of major type 7 starts with no simple value. -/
lemma ne_of_major {byte simple : UInt8} {major : ℕ} (h : byte.toNat / 2 ^ 5 = major)
    (hmajor : major < 7) (hsimple : simple.toNat / 2 ^ 5 = 7) : byte ≠ simple := by
  rintro rfl
  omega

lemma ByteString.encode_cons {major : ℕ} (hmajor : major < 7) (form : ByteString) :
    ∃ byte bs, form.encode major = byte :: bs ∧ byte.toNat / 2 ^ 5 = major := by
  cases form with
  | definite chunk =>
      obtain ⟨byte, bs, hhead, hbyte⟩ := head_cons hmajor chunk.fits
      exact ⟨byte, bs ++ chunk.bytes, by rw [encode, Chunk.encode, hhead]; rfl, hbyte⟩
  | chunked chunks =>
      refine ⟨_, _, rfl, ?_⟩
      rw [UInt8.toNat_ofNat']
      omega

lemma Numeral.encode_cons (value : Numeral) :
    ∃ byte bs, value.encode = byte :: bs ∧ byte ≠ 0xff ∧ byte ≠ 0xf6 := by
  have hhead : ∀ (major : ℕ) (width : Width) (n : ℕ) (tail : List UInt8), major < 7 →
      n < width.bound → ∃ byte bs, head major width n ++ tail = byte :: bs ∧ byte ≠ 0xff ∧
        byte ≠ 0xf6 := by
    intro major width n tail hmajor hn
    obtain ⟨byte, bs, hbytes, hbyte⟩ := head_cons hmajor hn
    exact ⟨byte, bs ++ tail, by rw [hbytes]; rfl, ne_of_major hbyte hmajor (by decide),
      ne_of_major hbyte hmajor (by decide)⟩
  have htag : ∀ (tag : Width) (n : ℕ), n < 24 → n < tag.bound :=
    fun tag n hn => hn.trans_le (by cases tag <;> decide)
  cases value with
  | unsigned a => simpa [encode] using hhead 0 a.width a.value [] (by decide) a.fits
  | negative a => simpa [encode] using hhead 1 a.width a.value [] (by decide) a.fits
  | bignum negative tag payload short =>
      cases negative with
      | false => exact hhead 6 tag 2 _ (by decide) (htag tag 2 (by decide))
      | true => exact hhead 6 tag 3 _ (by decide) (htag tag 3 (by decide))
  | half bits fits => exact ⟨_, _, rfl, by decide, by decide⟩
  | single bits fits => exact ⟨_, _, rfl, by decide, by decide⟩
  | double bits fits => exact ⟨_, _, rfl, by decide, by decide⟩

lemma Framing.openBytes_cons {framing : Framing} (kind : ContainerKind) {n : ℕ}
    (hfits : framing.Fits n) :
    ∃ byte bs, framing.openBytes kind n = byte :: bs ∧ byte.toNat / 2 ^ 5 = kind.major := by
  cases framing with
  | definite width => exact head_cons (by cases kind <;> decide) hfits
  | indefinite =>
      refine ⟨_, _, rfl, ?_⟩
      cases kind <;> rfl

lemma ContainerKind.major_lt (kind : ContainerKind) : kind.major < 7 := by
  cases kind <;> decide

/-- No item starts with the break byte, and only a null starts with the byte of null. -/
lemma Item.encode_cons {config : Config} {depth : ℕ} : (item : Item) →
    item.Within config depth → ∃ byte bs, item.encode = byte :: bs ∧ byte ≠ 0xff ∧
      (byte = 0xf6 → item.isNull = true)
  | .null, _ => ⟨_, _, rfl, by decide, fun _ => rfl⟩
  | .none, _ => ⟨_, _, rfl, by decide, fun _ => rfl⟩
  | .some item, h => item.encode_cons h.2
  | .bool false, _ => ⟨_, _, rfl, by decide, fun h => absurd h (by decide)⟩
  | .bool true, _ => ⟨_, _, rfl, by decide, fun h => absurd h (by decide)⟩
  | .number value, _ => by
      obtain ⟨byte, bs, hbytes, hff, hf6⟩ := value.encode_cons
      exact ⟨byte, bs, hbytes, hff, fun h => absurd h hf6⟩
  | .text value, _ => by
      obtain ⟨byte, bs, hbytes, hbyte⟩ := value.form.encode_cons (by decide : 3 < 7)
      exact ⟨byte, bs, hbytes, ne_of_major hbyte (by decide) (by decide),
        fun h => absurd h (ne_of_major hbyte (by decide) (by decide))⟩
  | .bytes value, _ => by
      obtain ⟨byte, bs, hbytes, hbyte⟩ := value.encode_cons (by decide : 2 < 7)
      exact ⟨byte, bs, hbytes, ne_of_major hbyte (by decide) (by decide),
        fun h => absurd h (ne_of_major hbyte (by decide) (by decide))⟩
  | .container kind framing elements, h => by
      obtain ⟨byte, bs, hbytes, hbyte⟩ := framing.openBytes_cons kind h.2.2.1
      refine ⟨byte, bs ++ (elements.encode ++ framing.closeBytes), ?_,
        ne_of_major hbyte kind.major_lt (by decide),
        fun h => absurd h (ne_of_major hbyte kind.major_lt (by decide))⟩
      rw [encode, hbytes]
      rfl

lemma Elements.length_le_encode {config : Config} {depth : ℕ} {kind : ContainerKind} :
    (elements : Elements kind) → elements.Within config depth →
      elements.length ≤ elements.encode.length
  | .nil, _ => Nat.le_refl _
  | .cons key item rest, h => by
      have hrest := rest.length_le_encode h.2
      obtain ⟨byte, bs, hbytes, -⟩ := item.encode_cons h.1
      rw [Elements.encode, hbytes]
      simp only [Elements.length, List.length_append, List.length_cons]
      omega

end RustBinary.Cbor
