import RustBinary.Projections.Record

/-!
# Parsed records

The parser admits a record only if its identifiers increase, so that an identifier has one
position (`Record.Canonical.index_inj`); positions fit 32 bits because the header counts the
fields in 32 bits.
-/

namespace RustBinary.Projections

open Lib Lib.Outcome

/-- What the parser promises of a record. -/
structure Record.Canonical (record : Record) : Prop where
  increasing : record.fields.Pairwise fun a b => a.fieldId < b.fieldId
  length_lt : record.fields.length < 2 ^ 32

lemma follows_none (id : UInt32) : follows none id = true := rfl

lemma follows_some {prev id : UInt32} : follows (some prev) id = true ↔ prev < id :=
  decide_eq_true_iff

/-- A field comes after the one before it. -/
lemma follows_of_parseField {input : Input} {limits : ProjectionLimits} {cursor : ℕ}
    {prev : Option FieldId} {out : ParsedField × ℕ}
    (h : parseField input limits cursor prev = .ok out) : follows prev out.1.fieldId := by
  obtain ⟨id, _, h⟩ := bind_eq_ok.mp h
  obtain ⟨len, _, h⟩ := bind_eq_ok.mp h
  obtain ⟨_, _, h⟩ := bind_eq_ok.mp h
  obtain ⟨_, hfollows, h⟩ := bind_eq_ok.mp h
  obtain ⟨_, _, h⟩ := bind_eq_ok.mp h
  obtain ⟨_, _, h⟩ := bind_eq_ok.mp h
  cases h
  exact require_eq_ok.mp hfollows

/-- The field loop gives as many fields as it is asked for, in increasing order. -/
lemma parseFields_eq_ok {input : Input} {limits : ProjectionLimits} {count cursor : ℕ}
    {prev : Option FieldId} {out : List ParsedField × ℕ}
    (h : parseFields input limits count cursor prev = .ok out) :
    out.1.length = count ∧
      (prev.toList ++ out.1.map ParsedField.fieldId).IsChain (· < ·) := by
  induction count generalizing cursor prev out with
  | zero =>
      cases h
      cases prev <;> simp
  | succ count ih =>
      obtain ⟨⟨field, next⟩, hfield, h⟩ := bind_eq_ok.mp h
      obtain ⟨⟨rest, stop⟩, hrest, h⟩ := bind_eq_ok.mp h
      cases h
      obtain ⟨hlen, hchain⟩ := ih hrest
      refine ⟨by rw [List.length_cons, hlen], ?_⟩
      cases prev with
      | none => exact hchain
      | some prev =>
          refine List.isChain_cons_cons.mpr ⟨?_, hchain⟩
          exact follows_some.mp (follows_of_parseField hfield)

lemma headerField_lt {input : Input} {start width n : ℕ}
    (h : headerField input start width = .ok n) : n < 256 ^ width := by
  obtain ⟨bytes, hbytes, h⟩ := bind_eq_ok.mp h
  cases h
  have hlen := slice_length (orPanic_eq_ok.mp hbytes)
  rw [Nat.add_sub_cancel_left] at hlen
  exact hlen ▸ leNat_lt bytes

lemma canonical_of_parse {input : Input} {limits : ProjectionLimits} {record : Record}
    (h : Record.parse input limits = .ok record) : record.Canonical := by
  obtain ⟨_, _, h⟩ := bind_eq_ok.mp h
  obtain ⟨_, _, h⟩ := bind_eq_ok.mp h
  obtain ⟨_, _, h⟩ := bind_eq_ok.mp h
  obtain ⟨_, _, h⟩ := bind_eq_ok.mp h
  obtain ⟨_, _, h⟩ := bind_eq_ok.mp h
  obtain ⟨_, _, h⟩ := bind_eq_ok.mp h
  obtain ⟨_, _, h⟩ := bind_eq_ok.mp h
  obtain ⟨count, hcount, h⟩ := bind_eq_ok.mp h
  obtain ⟨_, _, h⟩ := bind_eq_ok.mp h
  obtain ⟨_, _, h⟩ := bind_eq_ok.mp h
  obtain ⟨⟨fields, cursor⟩, hfields, h⟩ := bind_eq_ok.mp h
  obtain ⟨_, _, h⟩ := bind_eq_ok.mp h
  obtain ⟨_, _, h⟩ := bind_eq_ok.mp h
  obtain ⟨_, _, h⟩ := bind_eq_ok.mp h
  cases h
  obtain ⟨hlen, hchain⟩ := parseFields_eq_ok hfields
  refine ⟨List.pairwise_map.mp hchain.pairwise, ?_⟩
  exact hlen ▸ headerField_lt hcount

/-- In a canonical record an identifier has one position. -/
lemma Record.Canonical.index_inj {record : Record} (h : record.Canonical) {i j : ℕ}
    {f g : ParsedField} (hf : record.fields[i]? = some f) (hg : record.fields[j]? = some g)
    (heq : f.fieldId = g.fieldId) : i = j := by
  obtain ⟨hi, rfl⟩ := List.getElem?_eq_some_iff.mp hf
  obtain ⟨hj, rfl⟩ := List.getElem?_eq_some_iff.mp hg
  have hlt := List.pairwise_iff_getElem.mp h.increasing
  rcases Nat.lt_trichotomy i j with hij | hij | hij
  · exact absurd heq (UInt32.ne_of_lt (hlt i j hi hj hij))
  · exact hij
  · exact absurd heq.symm (UInt32.ne_of_lt (hlt j i hj hi hij))

end RustBinary.Projections
