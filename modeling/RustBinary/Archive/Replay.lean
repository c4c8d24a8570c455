import RustBinary.Archive.Plan

/-!
# Replaying a proof

From the labels of a tree, on the covered interval and on its siblings, the replay gives the
labels above (`replayLoop_labels`).  Conversely, a replay that ends in the root of a tree was
given labels of that tree, as long as the node hash is injective on the pairs that were hashed
(`replayLoop_sound`); indices count modulo the width of a level, since the covered interval
need not lie in the tree.
-/

namespace RustBinary.Archive

open Lib Lib.Outcome

variable {node : Digest → Digest → Digest} {T : ℕ → ℕ → Digest}

/-! ## Completeness -/

/-- Labels of a tree are replayed to the labels above them. -/
lemma replayLoop_labels (hT : IsLabelling node T) {k a b : ℕ} (hab : a ≤ b) (rest : List Digest) :
    replayLoop node (planLoop k (interval a b)) ((interval a b).map (T 0))
        (planHashes T (planLoop k (interval a b)) ++ rest)
      = .ok ((interval (a / 2 ^ k) (b / 2 ^ k)).map (T k), rest) := by
  induction k generalizing T a b with
  | zero => simp [planLoop, replayLoop, planHashes]
  | succ k ih =>
      have hlevel : pairLevel (interval a b) ((interval a b).map (T 0))
          ((leftEdge a ++ rightEdge b).map (T 0) ++
            (planHashes (fun l => T (l + 1)) (planLoop k (interval (a / 2) (b / 2))) ++ rest))
          = .ok ((interval (a / 2) (b / 2)).map fun p => (T 0 (2 * p), T 0 (2 * p + 1)),
            planHashes (fun l => T (l + 1)) (planLoop k (interval (a / 2) (b / 2))) ++ rest) := by
        refine (pairLevel_interval hab (by simp)).mpr
          ⟨(leftEdge a).map (T 0), (rightEdge b).map (T 0), by simp, by simp, by simp, ?_⟩
        exact (pairUp_labels (T 0) hab).symm
      have hnodes : ((interval (a / 2) (b / 2)).map fun p => (T 0 (2 * p), T 0 (2 * p + 1))).map
          (fun p => node p.1 p.2) = (interval (a / 2) (b / 2)).map (T 1) := by
        rw [List.map_map]
        exact List.map_congr_left fun p _ => (hT 0 p).symm
      have hnext := ih hT.shift (Nat.div_le_div_right (c := 2) hab)
      rw [Nat.div_div_eq_div_mul, Nat.div_div_eq_div_mul, ← pow_succ'] at hnext
      rw [planLoop_interval hab, replayLoop, planHashes, List.append_assoc, hlevel, ok_bind]
      show replayLoop node _ (List.map _ (List.map _ _)) _ = _
      rw [hnodes, hnext]

/-! ## Soundness -/

section

variable (node)

/-- The pairs that a replay hashes. -/
def hashedPairs : List LevelPlan → List Digest → List Digest → List (Digest × Digest)
  | [], _, _ => []
  | plan :: plans, hashes, siblings =>
      match pairLevel plan.covered hashes siblings with
      | .ok (pairs, siblings) =>
          pairs ++ hashedPairs plans (pairs.map fun p => node p.1 p.2) siblings
      | _ => []

end

/-- What a replay takes from the hash: among `pairs`, one that has the label of an inner node of
the tree of height `H` has its children, and none has the label of a leaf. -/
structure BindsLevels (node : Digest → Digest → Digest) (T : ℕ → ℕ → Digest) (H : ℕ)
    (pairs : List (Digest × Digest)) : Prop where
  children : ∀ p ∈ pairs, ∀ l i, l < H → i < 2 ^ (H - (l + 1)) → node p.1 p.2 = T (l + 1) i →
    p = (T l (2 * i), T l (2 * i + 1))
  notLeaf : ∀ p ∈ pairs, ∀ i < 2 ^ H, node p.1 p.2 ≠ T 0 i

/-- The labels that a replay of `h` levels into the root goes through. -/
def replayed (T : ℕ → ℕ → Digest) (H h l i : ℕ) : Digest := T (H - h + l) (i % 2 ^ (h - l))

lemma replayed_succ {H h : ℕ} (hlt : h < H) (l : ℕ) :
    replayed T H (h + 1) (l + 1) = replayed T H h l := by
  funext i
  rw [replayed, replayed, show H - (h + 1) + (l + 1) = H - h + l by omega, Nat.add_sub_add_right]

/-- A replay that ends in the root of a tree started from labels of the tree. -/
lemma replayLoop_sound {H : ℕ} {pairs : List (Digest × Digest)} (hb : BindsLevels node T H pairs)
    {h a b : ℕ} (hab : a ≤ b) {hashes siblings : List Digest} (hlen : hashes.length = b + 1 - a)
    (hsub : hashedPairs node (planLoop h (interval a b)) hashes siblings ⊆ pairs)
    (hok : replayLoop node (planLoop h (interval a b)) hashes siblings = .ok ([T H 0], [])) :
    h ≤ H ∧ hashes = (interval a b).map (replayed T H h 0) ∧
      siblings = planHashes (replayed T H h) (planLoop h (interval a b)) := by
  induction h generalizing a b hashes siblings with
  | zero =>
      rw [planLoop, replayLoop, pure_eq_ok, Outcome.ok.injEq, Prod.mk.injEq] at hok
      obtain ⟨rfl, rfl⟩ := hok
      obtain rfl : a = b := by
        rw [List.length_singleton] at hlen
        omega
      exact ⟨Nat.zero_le H, by simp [interval_self, replayed, Nat.mod_one], rfl⟩
  | succ h ih =>
      have hab' : a / 2 ≤ b / 2 := Nat.div_le_div_right hab
      rw [planLoop_interval hab] at hsub hok ⊢
      rw [replayLoop, bind_eq_ok] at hok
      obtain ⟨⟨level, rest⟩, hlevel, hok⟩ := hok
      rw [hashedPairs, hlevel] at hsub
      obtain ⟨hhere, habove⟩ := List.append_subset.mp hsub
      obtain ⟨left, right, hleft, hright, rfl, hpairs⟩ := (pairLevel_interval hab hlen).mp hlevel
      have hcount : level.length = b / 2 + 1 - a / 2 := by
        rw [hpairs, length_pairUp]
        simp only [List.length_append, hleft, hright, hlen]
        omega
      obtain ⟨hle, hnodes, hrest⟩ := ih hab' (by simpa using hcount) habove hok
      have hlt : h < H := by
        -- otherwise the first pair would have the label of a leaf
        refine Nat.lt_of_le_of_ne hle ?_
        rintro rfl
        obtain ⟨p, level, rfl⟩ : ∃ p tail, level = p :: tail := by
          refine List.exists_cons_of_length_pos ?_
          omega
        rw [interval_cons hab', List.map_cons, List.map_cons, List.cons.injEq, replayed,
          Nat.sub_self, Nat.sub_zero] at hnodes
        exact hb.notLeaf p (hhere List.mem_cons_self) _ (Nat.mod_lt _ (Nat.two_pow_pos h)) hnodes.1
      have hlabels : level = (interval (a / 2) (b / 2)).map fun p =>
          (replayed T H (h + 1) 0 (2 * p), replayed T H (h + 1) 0 (2 * p + 1)) := by
        refine eq_map_of_map_eq hnodes fun p hp i _ hnode => ?_
        have hwidth : 2 ^ (h + 1) = 2 * 2 ^ h := by rw [pow_succ, Nat.mul_comm]
        have hodd : (2 * i + 1) % (2 * 2 ^ h) = 2 * (i % 2 ^ h) + 1 := by
          rw [Nat.mod_mul, show (2 * i + 1) / 2 = i by omega, show (2 * i + 1) % 2 = 1 by omega,
            Nat.add_comm]
        have hchildren := hb.children p (hhere hp) (H - (h + 1)) (i % 2 ^ h) (by omega)
          (by
            rw [show H - (H - (h + 1) + 1) = h by omega]
            exact Nat.mod_lt _ (Nat.two_pow_pos _))
          (by
            rw [show H - (h + 1) + 1 = H - h by omega]
            exact hnode)
        rw [hchildren]
        show _ = (T (H - (h + 1)) (2 * i % 2 ^ (h + 1)), T (H - (h + 1)) ((2 * i + 1) % 2 ^ (h + 1)))
        rw [hwidth, Nat.mul_mod_mul_left, hodd]
      obtain ⟨hl, hh, hr⟩ := labels_of_pairUp (replayed T H (h + 1) 0) hab hleft hlen hright
        (hpairs.symm.trans hlabels)
      refine ⟨hlt, hh, ?_⟩
      simp only [planHashes, replayed_succ hlt]
      rw [List.map_append, ← hl, ← hr, hrest, List.append_assoc]

end RustBinary.Archive
