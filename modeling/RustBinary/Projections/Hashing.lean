import RustBinary.Projections.Frontier

/-!
# What the hash inputs bind

The inputs of the three hashes start with different bytes and spell what they are made of, so
on inputs without a collision a hash determines its kind and its parts.
-/

namespace RustBinary.Projections

open Lib Lib.Outcome Lib.HeapTree

/-! ## The inputs -/

lemma leBytes_uint32_inj {a b : UInt32} (h : leBytes 4 a.toNat = leBytes 4 b.toNat) : a = b :=
  UInt32.toNat_inj.mp
    ((leBytes_inj (by simpa using a.toNat_lt) (by simpa using b.toNat_lt)).mp h)

lemma leafInput_inj {a b : FieldId} {p q : List UInt8} (h : leafInput a p = leafInput b q) :
    a = b ∧ p = q := by
  obtain ⟨hid, hrest⟩ := List.append_inj (List.cons.inj h).2 (by simp)
  exact ⟨leBytes_uint32_inj hid, (List.append_inj hrest (by simp)).2⟩

lemma nodeInput_inj {a b l r : Digest} (h : nodeInput a b = nodeInput l r) : a = l ∧ b = r := by
  obtain ⟨hl, hr⟩ := List.append_inj (List.cons.inj h).2 (by simp)
  exact ⟨Vector.toList_inj.mp hl, Vector.toList_inj.mp hr⟩

lemma schemaInput_inj {a b : UInt32} {x y : Digest} (h : schemaInput a x = schemaInput b y) :
    a = b ∧ x = y := by
  obtain ⟨hv, hm⟩ := List.append_inj (List.cons.inj h).2 (by simp)
  exact ⟨leBytes_uint32_inj hv, Vector.toList_inj.mp hm⟩

lemma nodeInput_ne_leafInput (l r : Digest) (id : FieldId) (payload : List UInt8) :
    nodeInput l r ≠ leafInput id payload := by
  intro h
  exact absurd (List.cons.inj h).1 (by decide)

/-! ## Collision-free inputs -/

variable {blake3 : List UInt8 → Digest} {inputs : List (List UInt8)}

namespace CollisionFree

lemma leaf_inj (hf : CollisionFree blake3 inputs) {a b : FieldId} {p q : List UInt8}
    (hp : leafInput a p ∈ inputs) (hq : leafInput b q ∈ inputs)
    (h : leafHash blake3 a p = leafHash blake3 b q) : a = b ∧ p = q :=
  leafInput_inj (hf.injective _ hp _ hq h)

lemma node_inj (hf : CollisionFree blake3 inputs) {a b l r : Digest}
    (ha : nodeInput a b ∈ inputs) (hl : nodeInput l r ∈ inputs)
    (h : nodeHash blake3 a b = nodeHash blake3 l r) : a = l ∧ b = r :=
  nodeInput_inj (hf.injective _ ha _ hl h)

lemma node_ne_leaf (hf : CollisionFree blake3 inputs) {l r : Digest} {id : FieldId}
    {payload : List UInt8} (hn : nodeInput l r ∈ inputs) (hl : leafInput id payload ∈ inputs) :
    nodeHash blake3 l r ≠ leafHash blake3 id payload := fun h =>
  nodeInput_ne_leafInput l r id payload (hf.injective _ hn _ hl h)

lemma mono (hf : CollisionFree blake3 inputs) {inputs' : List (List UInt8)}
    (h : inputs' ⊆ inputs) : CollisionFree blake3 inputs' :=
  ⟨fun x hx y hy => hf.injective x (h hx) y (h hy), fun x hx => hf.nonzero x (h hx)⟩

end CollisionFree

end RustBinary.Projections
