import RustBinary.Projections.Soundness

/-!
# Verification and the query

`verify` is documented to return the projection of the record that a query asks for, but the
query is no argument of it.  What comes back is decided by the positions of the proof's
leaves: it is the projection exactly when these are the positions that the query selects.
-/

namespace RustBinary.Projections

open Lib Lib.Outcome

/-- `v` has every field of the record that `query` selects and nothing that it does not. -/
def Projects (query : Projection) (record : Record) (v : List VerifiedField) : Prop :=
  (∀ field ∈ record.fields, query.contains field.fieldId →
    ⟨field.fieldId, field.payload⟩ ∈ v) ∧
  ∀ field ∈ v, query.contains field.fieldId

instance (query : Projection) (record : Record) (v : List VerifiedField) :
    Decidable (Projects query record v) := by
  unfold Projects
  infer_instance

/-- The record has a field at position `i` that `query` selects. -/
def SelectedAt (query : Projection) (record : Record) (i : ℕ) : Prop :=
  ∃ field, record.fields[i]? = some field ∧ query.contains field.fieldId

/-- The leaves of the proof are at the positions that `query` selects. -/
def AnswersAt (query : Projection) (record : Record) (proof : ProjectionProof) : Prop :=
  ∀ i, i ∈ proof.leaves.map (fun leaf => leaf.index.toNat) ↔ SelectedAt query record i

/-- Leaves that are fields of a canonical record give its projection exactly when they are at
the selected positions. -/
lemma projects_iff {query : Projection} {record : Record} (hc : record.Canonical)
    {proof : ProjectionProof}
    (hleaf : ∀ leaf ∈ proof.leaves,
      record.fields[leaf.index.toNat]? = some ⟨leaf.fieldId, leaf.payload⟩) :
    Projects query record (verifiedFields proof) ↔ AnswersAt query record proof := by
  constructor
  · rintro ⟨hall, honly⟩ i
    constructor
    · intro hi
      obtain ⟨leaf, hmem, rfl⟩ := List.mem_map.mp hi
      exact ⟨_, hleaf leaf hmem, honly _ (List.mem_map.mpr ⟨leaf, hmem, rfl⟩)⟩
    · rintro ⟨field, hfield, hq⟩
      obtain ⟨leaf, hmem, heq⟩ :=
        List.mem_map.mp (hall field (List.mem_of_getElem? hfield) hq)
      have hid : leaf.fieldId = field.fieldId := congrArg VerifiedField.fieldId heq
      -- an identifier has one position in a canonical record
      exact List.mem_map.mpr ⟨leaf, hmem, hc.index_inj (hleaf leaf hmem) hfield hid⟩
  · intro h
    constructor
    · intro field hfield hq
      obtain ⟨i, hi⟩ := List.mem_iff_getElem?.mp hfield
      obtain ⟨leaf, hmem, rfl⟩ := List.mem_map.mp ((h i).mpr ⟨field, hi, hq⟩)
      have heq : field = ⟨leaf.fieldId, leaf.payload⟩ :=
        Option.some.inj (hi.symm.trans (hleaf leaf hmem))
      exact List.mem_map.mpr ⟨leaf, hmem, by rw [heq]⟩
    · intro field hfield
      obtain ⟨leaf, hmem, rfl⟩ := List.mem_map.mp hfield
      obtain ⟨field', hfield', hq⟩ :=
        (h leaf.index.toNat).mp (List.mem_map.mpr ⟨leaf, hmem, rfl⟩)
      rw [hleaf leaf hmem] at hfield'
      obtain rfl := Option.some.inj hfield'
      exact hq

variable {blake3 : List UInt8 → Digest}

/-- What `verify` accepts as an answer to `query` is the projection of the record exactly when
the leaves of the proof are at the positions that `query` selects. -/
theorem verify_projects_iff {input : Input} {limits : ProjectionLimits} {record : Record}
    (hparse : Record.parse input limits = .ok record)
    (hroot : record.verifyRoot blake3 = .ok ()) {proof : ProjectionProof}
    (hf : CollisionFree blake3 (record.hashInputs blake3 ++ proof.hashInputs blake3))
    {v : List VerifiedField}
    (hverify : verify blake3 proof record.root record.schemaVersion = .ok v)
    (query : Projection) :
    Projects query record v ↔ AnswersAt query record proof := by
  obtain ⟨-, -, rfl, -⟩ := verify_eq_ok_iff.mp hverify
  exact projects_iff (canonical_of_parse hparse) (leaf_eq_of_verify hroot hf hverify)

theorem verify_projects_sample : Projects (Projection.new [1]) sampleRecord [⟨1, [0x61]⟩] ↔
    AnswersAt (Projection.new [1]) sampleRecord sampleProof :=
  verify_projects_iff sample_parse sample_verifyRoot sample_collisionFree sample_verify _

/-- The proof of the first field is accepted for a query that asks for both. -/
theorem verify_omits :
    Record.parse sampleInput ProjectionLimits.new = .ok sampleRecord ∧
      sampleRecord.verifyRoot sampleHash = .ok () ∧
      CollisionFree sampleHash
        (sampleRecord.hashInputs sampleHash ++ sampleProof.hashInputs sampleHash) ∧
      verify sampleHash sampleProof sampleRecord.root sampleRecord.schemaVersion =
        .ok [⟨1, [0x61]⟩] ∧
      ¬ Projects (Projection.new [1, 2]) sampleRecord [⟨1, [0x61]⟩] :=
  ⟨sample_parse, sample_verifyRoot, sample_collisionFree, sample_verify, by decide +kernel⟩

end RustBinary.Projections
