import RustBinary.Delta.Plan

/-!
# Failed frames

Both directions move the table entry by entry, while a frame can fail at any later point: what
is left of a failed call is the table under the literals that precede the failure.  The table
is what it was only when these have changed nothing.
-/

namespace RustBinary.Delta

open Lib Lib.Outcome DeltaCursor

/-! ## Encoding -/

/-- A failed call of the encoder leaves the table alone. -/
def EncodeAtomic (base : Config) (t : DeltaTable) (updates : List (List UInt8)) : Prop :=
  ∀ e u, encodeUpdates base updates t = (.err e, u) → u = t

/-- The frame of the plan is within the limits. -/
def FrameFits (base : Config) (entries : List Entry) : Prop :=
  headerLen + (entries.flatMap Entry.encode).length ≤ u64Max ∧
    ∀ limit, base.limit = some limit →
      headerLen + (entries.flatMap Entry.encode).length ≤ limit

/-- The frame fits, or no value misses the table, or those that do fill it anew with what it
held. -/
def EncodeKeeps (base : Config) (t : DeltaTable) (updates : List (List UInt8)) : Prop :=
  FrameFits base (plan t updates) ∨ literals (plan t updates) = [] ∨
    t.maxEntries < (literals (plan t updates)).length ∧
      (literals (plan t updates)).reverse.take t.maxEntries = t.entries

/-- The encoder fails exactly on the limits, and has inserted the literals by then. -/
lemma encodeUpdates_fails {base : Config} {t : DeltaTable} {updates : List (List UInt8)}
    (h : ¬ FrameFits base (plan t updates)) :
    ∃ e, encodeUpdates base updates t = (.err e, t.insertedAll (literals (plan t updates))) := by
  rw [encodeUpdates, Act.bind_run, encodeEntries_run, List.nil_append]
  dsimp only
  rw [checkedAdd]
  split
  · next hfits =>
      rw [okOr_some, lift_ok_bind_run]
      have hlimit : ¬ base.enforceByteLimit
          (headerLen + ((plan t updates).flatMap Entry.encode).length) = ok () := by
        rw [Config.enforceByteLimit_eq_ok]
        exact fun hle => h ⟨hfits, hle⟩
      rw [Config.enforceByteLimit] at hlimit ⊢
      cases hl : base.limit with
      | none => simp [hl] at hlimit
      | some limit =>
          rw [hl] at hlimit
          dsimp only at hlimit ⊢
          split at hlimit
          · next hlt => exact ⟨_, by rw [if_pos hlt, lift_err_bind_run]⟩
          · exact absurd rfl hlimit
  · exact ⟨_, by rw [okOr_none, lift_err_bind_run]⟩

/-- Within the limits the encoder does not fail. -/
lemma encodeUpdates_succeeds {base : Config} {t : DeltaTable} {updates : List (List UInt8)}
    (h : FrameFits base (plan t updates)) :
    ∃ f, encodeUpdates base updates t = (ok f, t.insertedAll (literals (plan t updates))) := by
  have hlimit : base.enforceByteLimit
      (headerLen + ((plan t updates).flatMap Entry.encode).length) = ok () :=
    Config.enforceByteLimit_eq_ok.mpr h.2
  refine ⟨frame updates.length ((plan t updates).flatMap Entry.encode), ?_⟩
  rw [encodeUpdates, Act.bind_run, encodeEntries_run, List.nil_append]
  dsimp only
  rw [checkedAdd, if_pos h.1, okOr_some, lift_ok_bind_run, hlimit, lift_ok_bind_run, Act.pure_run]

lemma encodeAtomic_iff (base : Config) (t : DeltaTable) (updates : List (List UInt8)) :
    EncodeAtomic base t updates ↔ EncodeKeeps base t updates := by
  by_cases hfits : FrameFits base (plan t updates)
  · obtain ⟨f, hrun⟩ := encodeUpdates_succeeds hfits
    refine iff_of_true (fun e u h => ?_) (Or.inl hfits)
    rw [hrun] at h
    simp at h
  · obtain ⟨e, hrun⟩ := encodeUpdates_fails hfits
    have hkept := pushAll_eq_self_iff t.length_le (fresh_plan t updates)
    rw [← DeltaTable.insertedAll_eq_self_iff] at hkept
    rw [EncodeKeeps, or_iff_right hfits, ← hkept]
    constructor
    · exact fun h => h e _ hrun
    · intro h e' u hu
      rw [hrun, Prod.mk.injEq] at hu
      rw [← hu.2, h]

/-! ## Decoding -/

/-- A failed call of the decoder leaves the table alone. -/
def DecodeAtomic (base : Config) (t : DeltaTable) (input : Input) : Prop :=
  ∀ e u, decodeUpdates base input t = (.err e, u) → u = t

/-- The entries of a frame up to the first that is refused, and whether there is one: `held`
values are in a table of `cap` at first, and a reference beyond them is refused. -/
def scan (cap : ℕ) : ℕ → ℕ → DeltaCursor → List Entry × Outcome Error Unit
  | 0, _, c => ([], c.finish)
  | n + 1, held, c =>
      match readEntry c with
      | .ok (.ref index, c) =>
          if index < held then
            let rest := scan cap n held c
            (.ref index :: rest.1, rest.2)
          else ([], .err (.delta "delta table reference out of range"))
      | .ok (.literal value, c) =>
          let rest := scan cap n (min cap (held + 1)) c
          (.literal value :: rest.1, rest.2)
      | .err e => ([], .err e)
      | .panic => ([], .panic)
      | .diverge => ([], .diverge)

/-- The frame is refused on its header, or it is accepted, or its entries are too many for a
vector, or the literals before the failure leave the table as it was. -/
def DecodeKeeps (base : Config) (t : DeltaTable) (input : Input) : Prop :=
  match readHeader base input.bytes with
  | .ok (reset, count) =>
      let held := if reset then [] else t.entries
      let scanned := scan t.maxEntries count held.length ⟨input.bytes.drop headerLen, 0⟩
      isizeMax < 24 * count ∨ scanned.2 = .ok () ∨
        pushAll t.maxEntries (literals scanned.1) held = t.entries
  | _ => True

/-- The end of `decode_updates`. -/
def finished (read : List (List UInt8) × DeltaCursor) : Act DeltaTable Error (List (List UInt8)) := do
  lift read.2.finish
  pure read.1

/-- What the decoder does after the header, apart from the values it returns. -/
lemma decodeEntries_scan (n : ℕ) (c : DeltaCursor) (updates : List (List UInt8)) (t : DeltaTable) :
    ((decodeEntries n c updates >>= finished) t).2
        = t.insertedAll (literals (scan t.maxEntries n t.entries.length c).1) ∧
      ∀ e, ((decodeEntries n c updates >>= finished) t).1 = .err e ↔
        (scan t.maxEntries n t.entries.length c).2 = .err e := by
  induction n generalizing c updates t with
  | zero =>
      rw [decodeEntries, Act.pure_bind_run, finished, scan]
      cases c.finish <;> simp [literals, DeltaTable.insertedAll]
  | succ n ih =>
      rw [Act.bind_run, decodeEntries_succ, scan]
      cases hread : readEntry c with
      | err e => simp [literals, DeltaTable.insertedAll]
      | panic => simp [literals, DeltaTable.insertedAll]
      | diverge => simp [literals, DeltaTable.insertedAll]
      | ok read =>
          obtain ⟨entry, c⟩ := read
          cases entry with
          | ref index =>
              dsimp only
              by_cases hlt : index < t.entries.length
              · -- the table holds an entry there
                have hget : t.get index = some t.entries[index] := List.getElem?_eq_getElem hlt
                rw [if_pos hlt, hget]
                dsimp only
                rw [← Act.bind_run]
                exact ih c _ t
              · have hget : t.get index = none := List.getElem?_eq_none (not_lt.mp hlt)
                rw [if_neg hlt, hget]
                simp [literals, DeltaTable.insertedAll]
          | literal value =>
              dsimp only
              rw [← Act.bind_run]
              have hheld : (t.inserted value).entries.length
                  = min t.maxEntries (t.entries.length + 1) := by
                rw [DeltaTable.inserted_entries, List.length_take, List.length_cons]
              have hrest := ih c (updates ++ [value]) (t.inserted value)
              rw [hheld, DeltaTable.inserted_maxEntries] at hrest
              exact hrest

/-! ### The decoder comes back -/

lemma byte_returned (c : DeltaCursor) : c.byte.Returned := by
  rw [byte]
  split <;> trivial

lemma take_returned (c : DeltaCursor) (length : ℕ) : (c.take length).Returned := by
  rw [take]
  split
  · trivial
  · split <;> trivial

/-- The shift reaches 128 before the rounds are used up. -/
lemma varintLoop_returned {n shift acc : ℕ} (c : DeltaCursor) (hround : 135 ≤ 7 * n + shift)
    (hshift : shift < 135) : (c.varintLoop n shift acc).Returned := by
  induction n generalizing shift acc c with
  | zero => omega
  | succ n ih =>
      rw [varintLoop]
      have hbyte := byte_returned c
      cases h : c.byte with
      | err e => trivial
      | panic => rw [h] at hbyte; exact hbyte.elim
      | diverge => rw [h] at hbyte; exact hbyte.elim
      | ok read =>
          dsimp only
          split
          · trivial
          · split
            · trivial
            · split
              · trivial
              · exact ih read.2 (by omega) (by omega)

lemma varint_returned (c : DeltaCursor) : c.varint.Returned :=
  varintLoop_returned c (by decide) (by decide)

lemma usizeVarint_returned (c : DeltaCursor) : c.usizeVarint.Returned := by
  refine bind_returned (varint_returned c) ?_
  rintro ⟨value, c⟩
  dsimp only
  split <;> trivial

lemma readEntry_returned (c : DeltaCursor) : (readEntry c).Returned := by
  refine bind_returned (byte_returned c) ?_
  rintro ⟨tag, c⟩
  dsimp only
  split
  · refine bind_returned (varint_returned c) ?_
    rintro ⟨index, c⟩
    dsimp only
    split <;> trivial
  · split
    · refine bind_returned (usizeVarint_returned c) ?_
      rintro ⟨length, c⟩
      exact bind_returned (take_returned c length) fun _ => trivial
    · trivial

lemma scan_returned (cap n held : ℕ) (c : DeltaCursor) : (scan cap n held c).2.Returned := by
  induction n generalizing held c with
  | zero =>
      rw [scan, finish]
      split <;> trivial
  | succ n ih =>
      rw [scan]
      have hread := readEntry_returned c
      cases h : readEntry c with
      | err e => trivial
      | panic => rw [h] at hread; exact hread.elim
      | diverge => rw [h] at hread; exact hread.elim
      | ok read =>
          obtain ⟨entry, c⟩ := read
          cases entry with
          | ref index =>
              dsimp only
              split
              · exact ih held c
              · trivial
          | literal value => exact ih _ c

lemma decodeAtomic_iff (base : Config) (t : DeltaTable) (input : Input) :
    DecodeAtomic base t input ↔ DecodeKeeps base t input := by
  rw [DecodeAtomic, DecodeKeeps]
  cases hheader : readHeader base input.bytes with
  | err e =>
      -- the table has not been touched
      refine iff_of_true (fun e' u h => ?_) trivial
      rw [decodeUpdates, hheader, lift_err_bind_run, Prod.mk.injEq] at h
      exact h.2.symm
  | panic =>
      refine iff_of_true (fun e' u h => ?_) trivial
      rw [decodeUpdates, hheader, lift_panic_bind_run] at h
      simp at h
  | diverge =>
      refine iff_of_true (fun e' u h => ?_) trivial
      rw [decodeUpdates, hheader, lift_diverge_bind_run] at h
      simp at h
  | ok header =>
      obtain ⟨reset, count⟩ := header
      dsimp only
      let start : DeltaTable := if reset then t.cleared else t
      have hstart : start.entries = (if reset then [] else t.entries) ∧
          start.maxEntries = t.maxEntries := by
        cases reset
        · exact ⟨rfl, rfl⟩
        · exact ⟨rfl, rfl⟩
      have hrun : decodeUpdates base input t = (lift (withCapacity 24 count) >>= fun _ =>
          decodeEntries count ⟨input.bytes.drop headerLen, 0⟩ [] >>= finished) start := by
        rw [decodeUpdates, hheader, lift_ok_bind_run]
        cases reset <;> rfl
      by_cases hcap : 24 * count ≤ isizeMax
      · rw [withCapacity_of_le hcap, lift_ok_bind_run] at hrun
        obtain ⟨hleft, herr⟩ := decodeEntries_scan count ⟨input.bytes.drop headerLen, 0⟩ [] start
        have hreturned := scan_returned t.maxEntries count (start.entries.length)
          ⟨input.bytes.drop headerLen, 0⟩
        rw [← hrun, hstart.2] at hleft herr
        rw [or_iff_right (not_lt.mpr hcap), ← hstart.1]
        generalize scan t.maxEntries count start.entries.length ⟨input.bytes.drop headerLen, 0⟩
          = scanned at hleft herr hreturned ⊢
        have hkept : start.insertedAll (literals scanned.1) = t ↔
            pushAll t.maxEntries (literals scanned.1) start.entries = t.entries := by
          rw [← hstart.2, ← DeltaTable.insertedAll_entries]
          exact ⟨fun h => congrArg _ h, fun h => DeltaTable.ext h
            ((DeltaTable.insertedAll_maxEntries _ _).trans hstart.2)⟩
        rw [← hkept, ← hleft]
        constructor
        · intro h
          rw [or_iff_not_imp_left]
          intro hfailed
          by_contra hne
          obtain ⟨⟨⟩, hok⟩ := hreturned.eq_ok fun e he => hne (h e _ (Prod.ext ((herr e).mpr he) rfl))
          exact hfailed hok
        · rintro (hok | hsame) e u h
          · have hfail := (herr e).mp (by rw [h])
            rw [hok] at hfail
            simp at hfail
          · rw [h] at hsame
            exact hsame
      · refine iff_of_true (fun e u h => ?_) (Or.inl (not_le.mp hcap))
        rw [hrun, withCapacity, if_neg hcap, lift_panic_bind_run] at h
        simp at h

/-- When failed calls leave the table alone, in both directions. -/
theorem atomic_iff (base : Config) (t : DeltaTable) :
    (∀ updates, EncodeAtomic base t updates ↔ EncodeKeeps base t updates) ∧
      ∀ input, DecodeAtomic base t input ↔ DecodeKeeps base t input :=
  ⟨encodeAtomic_iff base t, decodeAtomic_iff base t⟩

/-- A frame over the limit whose literal stays behind, and a literal before an unknown tag. -/
theorem not_atomic :
    encodeUpdates (Config.standard.withLimit 16) [[7]] (DeltaTable.new 1 (by decide)) =
        (.err (.sizeLimit 16), ⟨[[7]], 1, by decide, by decide⟩) ∧
      decodeUpdates Config.standard
          ⟨magic ++ [1, 0, 0, 0, 2, 0, 0, 0, 0, 0, 0, 0, 1, 1, 7, 2], by decide⟩
          (DeltaTable.new 1 (by decide)) =
        (.err (.delta "unknown delta entry tag"), ⟨[[7]], 1, by decide, by decide⟩) := by
  decide

end RustBinary.Delta
