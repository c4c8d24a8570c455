import RustBinary.Compact.Bulk

/-!
# The bulk paths of varints

The bulk encoder fills a buffer of 64 bytes before it goes to the sink; the bulk decoder takes a run
of plain bytes at once.  On every sink that takes a text as it takes its pieces, the one writes what
the elements write; the other comes back with what the elements decode to one by one, or with the
same error.
-/

namespace RustBinary.Compact

open Lib Lib.Act Native CompactCursor
open EncodeWriter (writeAll)

/-! ## Sinks that take texts piece by piece -/

/-- A sink that takes a text exactly when it takes the pieces one behind the other. -/
class Additive (W : Type) [EncodeWriter W] : Prop where
  append : ∀ (xs ys : List UInt8) (w w' : W), writeAll (xs ++ ys) w = (.ok (), w') ↔
    ∃ u, writeAll xs w = (.ok (), u) ∧ writeAll ys u = (.ok (), w')

lemma vecWriter_eq_ok {bytes : List UInt8} {w w' : VecWriter} :
    writeAll bytes w = (.ok (), w') ↔
      w.output.length + bytes.length ≤ isizeMax ∧ w' = ⟨w.output ++ bytes⟩ := by
  change (get >>= _ : Act VecWriter Error Unit) w = _ ↔ _
  rw [get_bind_run]
  split
  · next h => simp [h, eq_comm]
  · next h => simp [h]

instance : Additive VecWriter where
  append xs ys w w' := by
    simp only [vecWriter_eq_ok, List.length_append]
    constructor
    · rintro ⟨hle, rfl⟩
      exact ⟨_, ⟨by omega, rfl⟩, by rw [List.length_append]; omega, by rw [List.append_assoc]⟩
    · rintro ⟨_, ⟨-, rfl⟩, hle, rfl⟩
      rw [List.length_append] at hle
      exact ⟨by omega, by rw [List.append_assoc]⟩

lemma countWriter_eq_ok {bytes : List UInt8} {w w' : CountWriter} :
    writeAll bytes w = (.ok (), w') ↔
      w.written + bytes.length ≤ u64Max ∧ w' = ⟨w.written + bytes.length⟩ := by
  by_cases h : bytes.length ≤ u64Max
  · rw [CountWriter.writeAll_run h]
    split
    · next hle => simp [hle, eq_comm]
    · next hlt => simp [hlt]
  · change (if bytes.length ≤ u64Max then _ else _ : Act CountWriter Error Unit) w = _ ↔ _
    rw [if_neg h]
    exact iff_of_false (by rintro ⟨⟩) fun hle => h (le_of_add_le_right hle.1)

instance : Additive CountWriter where
  append xs ys w w' := by
    simp only [countWriter_eq_ok, List.length_append]
    constructor
    · rintro ⟨hle, rfl⟩
      rw [← Nat.add_assoc] at hle ⊢
      exact ⟨_, ⟨le_of_add_le_left hle, rfl⟩, hle, rfl⟩
    · rintro ⟨_, ⟨-, rfl⟩, hle, rfl⟩
      rw [Nat.add_assoc] at hle
      exact ⟨hle, by rw [Nat.add_assoc]⟩

lemma sliceWriter_eq_ok {bytes : List UInt8} {w w' : SliceWriter} :
    writeAll bytes w = (.ok (), w') ↔
      w.required + bytes.length ≤ u64Max ∧
        w' = ⟨(w.copy bytes).output, w.required + bytes.length⟩ := by
  change (modify _ >>= _ : Act SliceWriter Error Unit) w = _ ↔ _
  rw [modify_bind_run, get_bind_run, show (w.copy bytes).required = w.required from rfl, checkedAdd]
  split
  · next hle =>
      rw [okOr_some, pure_bind_run, modify_run, Prod.mk.injEq, and_iff_right rfl, and_iff_right hle]
      exact eq_comm
  · next hlt =>
      rw [okOr_none, throw_bind_run]
      exact iff_of_false (by rintro ⟨⟩) fun hle => hlt hle.1

/-- Behind the end of the memory nothing is copied. -/
lemma copy_full {w : SliceWriter} (h : w.output.length < w.required) (bytes : List UInt8) :
    (w.copy bytes).output = w.output := by
  have hstart : min w.required w.output.length = w.output.length := Nat.min_eq_right h.le
  rw [SliceWriter.copy, hstart]
  dsimp only
  rw [Nat.sub_self, Nat.zero_min, List.take_zero, List.take_length, List.append_nil, Nat.add_zero,
    List.drop_length, List.append_nil]

/-- A writer that has not gone past its memory, by what it has been given. -/
lemma eq_after {w : SliceWriter} (h : w.required ≤ w.output.length) :
    w = .after w.output (w.output.take w.required) := by
  have hlen : (w.output.take w.required).length = w.required := List.length_take_of_le h
  rw [SliceWriter.after, hlen, List.take_take, Nat.min_eq_right h, List.take_append_drop]

lemma copy_copy (w : SliceWriter) (xs ys : List UInt8) :
    ((⟨(w.copy xs).output, w.required + xs.length⟩ : SliceWriter).copy ys).output =
      (w.copy (xs ++ ys)).output := by
  rcases Nat.lt_or_ge w.output.length w.required with h | h
  · have hfull := copy_full h
    rw [copy_full (by rw [hfull]; exact h.trans_le (Nat.le_add_right _ _)), hfull, hfull]
  · obtain ⟨pre, hw, hlen⟩ : ∃ pre, w = .after w.output pre ∧ pre.length = w.required :=
      ⟨_, eq_after h, List.length_take_of_le h⟩
    have hxs : (⟨(w.copy xs).output, w.required + xs.length⟩ : SliceWriter) =
        .after w.output (pre ++ xs) := by
      have hcopy := SliceWriter.copy_after w.output pre xs
      rw [← hw] at hcopy
      rw [hcopy, ← hlen, ← List.length_append]
      rfl
    have hall := SliceWriter.copy_after w.output pre (xs ++ ys)
    rw [← hw] at hall
    rw [hxs, SliceWriter.copy_after, hall, List.append_assoc]

instance : Additive SliceWriter where
  append xs ys w w' := by
    simp only [sliceWriter_eq_ok, List.length_append]
    constructor
    · rintro ⟨hle, rfl⟩
      rw [← Nat.add_assoc] at hle
      refine ⟨_, ⟨le_of_add_le_left hle, rfl⟩, hle, ?_⟩
      rw [copy_copy, Nat.add_assoc]
    · rintro ⟨_, ⟨-, rfl⟩, hle, rfl⟩
      rw [copy_copy, Nat.add_assoc]
      rw [Nat.add_assoc] at hle
      exact ⟨hle, rfl⟩

section Bounded

variable {W : Type} [EncodeWriter W]

lemma boundedWriter_eq_ok {bytes : List UInt8} {w w' : BoundedWriter W} :
    writeAll bytes w = (.ok (), w') ↔
      w.written + bytes.length ≤ u64Max ∧
        (∀ l, w.limit = some l → w.written + bytes.length ≤ l) ∧
        ∃ inner, writeAll bytes w.inner = (.ok (), inner) ∧ w' = w.wrote inner bytes.length := by
  change BoundedWriter.write bytes w = _ ↔ _
  by_cases h : bytes.length ≤ u64Max
  · rw [BoundedWriter.write, if_pos h]
    simp only [bind_eq_ok, get_run, Prod.mk.injEq, Outcome.ok.injEq, okOr_eq_ok, atMost_eq_ok]
    constructor
    · rintro ⟨_, _, ⟨rfl, rfl⟩, next, s, ⟨hnext, rfl⟩, _, _, ⟨hlimit, rfl⟩, hforward⟩
      rw [checkedAdd, Option.ite_none_right_eq_some, Option.some.injEq] at hnext
      obtain ⟨hadd, rfl⟩ := hnext
      rw [BoundedWriter.forward] at hforward
      split at hforward <;> cases hforward
      next inner hinner => exact ⟨hadd, hlimit, inner, hinner, rfl⟩
    · rintro ⟨hadd, hlimit, inner, hinner, rfl⟩
      refine ⟨_, _, ⟨rfl, rfl⟩, _, _, ⟨if_pos hadd, rfl⟩, (), _, ⟨hlimit, rfl⟩, ?_⟩
      rw [BoundedWriter.forward, hinner]
      rfl
  · rw [BoundedWriter.write, if_neg h]
    exact iff_of_false (by rintro ⟨⟩) fun hle => h (le_of_add_le_right hle.1)

instance [Additive W] : Additive (BoundedWriter W) where
  append xs ys w w' := by
    simp only [boundedWriter_eq_ok, List.length_append, ← Nat.add_assoc]
    constructor
    · rintro ⟨hadd, hlimit, inner, hinner, rfl⟩
      obtain ⟨u, hxs, hys⟩ := (Additive.append xs ys w.inner inner).mp hinner
      refine ⟨_, ⟨le_of_add_le_left hadd, fun l hl => le_of_add_le_left (hlimit l hl), u, hxs, rfl⟩,
        hadd, hlimit, inner, hys, ?_⟩
      simp only [BoundedWriter.wrote, Nat.add_assoc]
    · rintro ⟨_, ⟨-, -, u, hxs, rfl⟩, hadd, hlimit, inner, hys, rfl⟩
      refine ⟨hadd, hlimit, inner, (Additive.append xs ys w.inner inner).mpr ⟨u, hxs, hys⟩, ?_⟩
      simp only [BoundedWriter.wrote, Nat.add_assoc]

end Bounded

/-! ## The bulk encoder -/

section Encode

variable {W : Type} [ContainerWriter W] [Additive W] {w w' : W}

/-- Texts that are written one behind the other. -/
lemma encodeAll_eq_ok {α : Type} {f : α → List UInt8} {a : α} {as : List α} :
    encodeAll (fun a => writeAll (f a)) (a :: as) w = (.ok (), w') ↔
      writeAll ((a :: as).flatMap f) w = (.ok (), w') := by
  induction as generalizing a w with
  | nil => rw [encodeAll, encodeAll, bind_pure_unit, List.flatMap_cons, List.flatMap_nil,
      List.append_nil]
  | cons b as ih =>
      rw [encodeAll, bind_eq_ok, List.flatMap_cons, Additive.append]
      constructor
      · rintro ⟨⟨⟩, u, hfirst, hrest⟩
        exact ⟨u, hfirst, ih.mp hrest⟩
      · rintro ⟨u, hfirst, hrest⟩
        exact ⟨(), u, hfirst, ih.mpr hrest⟩

/-- The buffer goes to the sink with the varints behind it. -/
lemma varintsLoop_writes {buffer : List UInt8} {values : List ℕ} (hpos : 0 < buffer.length)
    (hbuffer : buffer.length ≤ 64) (hvalues : ∀ value ∈ values, value < 2 ^ 64) :
    Compact.varintsLoop buffer values w = (.ok (), w') ↔
      writeAll (buffer ++ values.flatMap encodeVarintLe) w = (.ok (), w') := by
  induction values generalizing buffer w with
  | nil => rw [Compact.varintsLoop, if_pos hpos, List.flatMap_nil, List.append_nil]
  | cons value rest ih =>
      obtain ⟨hvalue, hrest⟩ := List.forall_mem_cons.mp hvalues
      obtain ⟨hbytes, hlen⟩ := Scripted.writeVarintInto_eq hvalue
      have hpos' := (Scripted.length_encodeVarintLe value).1
      rw [List.flatMap_cons, Compact.varintsLoop, hbytes]
      by_cases hflush : 64 < buffer.length + 17
      · -- the varint is the first of the next buffer
        have hnext : (encodeVarintLe value).length ≤ 64 := hlen.trans (by decide)
        rw [if_pos hflush, if_neg (Nat.not_lt.mpr hnext), bind_eq_ok, Additive.append]
        constructor
        · rintro ⟨⟨⟩, u, hwrite, hloop⟩
          exact ⟨u, hwrite, (ih hpos' hnext hrest).mp hloop⟩
        · rintro ⟨u, hwrite, hloop⟩
          exact ⟨(), u, hwrite, (ih hpos' hnext hrest).mpr hloop⟩
      · have hnext : (buffer ++ encodeVarintLe value).length ≤ 64 := by
          rw [List.length_append]
          omega
        have hfits : ¬ 64 < buffer.length + (encodeVarintLe value).length := by
          rw [← List.length_append]
          exact Nat.not_lt.mpr hnext
        have hpos'' : 0 < (buffer ++ encodeVarintLe value).length := by
          rw [List.length_append]
          omega
        rw [if_neg hflush, if_neg hfits, ih hpos'' hnext hrest, List.append_assoc]

/-- Varints in bulk are the varints one by one. -/
lemma encodeVarintsBulk_eq_ok {α : Type} {f : α → ℕ} {values : List α}
    (h : ∀ value ∈ values, f value < 2 ^ 64) :
    encodeVarintsBulk (values.map f) w = (.ok (), w') ↔
      encodeAll (fun value => encodeVarint (f value)) values w = (.ok (), w') := by
  rcases values with _ | ⟨value, rest⟩
  · rfl
  · obtain ⟨hvalue, hrest⟩ := List.forall_mem_cons.mp h
    obtain ⟨hbytes, hlen⟩ := Scripted.writeVarintInto_eq hvalue
    have hfits : ¬ 64 < (encodeVarintLe (f value)).length :=
      Nat.not_lt.mpr (hlen.trans (by decide))
    have hloop : encodeVarintsBulk (f value :: rest.map f) =
        Compact.varintsLoop (W := W) (encodeVarintLe (f value)) (rest.map f) := by
      rw [encodeVarintsBulk, Compact.varintsLoop, hbytes]
      rw [if_neg (by decide), List.length_nil, Nat.zero_add, if_neg hfits, List.nil_append]
    have hall := @encodeAll_eq_ok W _ _ w w' _ (fun value => encodeVarintLe (f value)) value rest
    rw [List.map_cons, hloop, varintsLoop_writes (Scripted.length_encodeVarintLe (f value)).1
      (hlen.trans (by decide)) (List.forall_mem_map.mpr hrest), List.flatMap_map]
    rw [List.flatMap_cons] at hall
    exact hall.symm

end Encode

/-! ## The bulk decoder -/

section Decode

variable {s t u : CompactCursor} {e : Error}

/-- One by one, the first error is the error. -/
lemma decodeTimes_of_err {α : Type} {m : Dec α} {n : ℕ} (h : (m s).1 = .err e) :
    (decodeTimes m (n + 1) s).1 = .err e := by
  rw [decodeTimes, bind_run]
  rcases hm : m s with ⟨a | e' | _ | _, t⟩ <;> rw [hm] at h <;> cases h
  rfl

lemma decodeTimes_of_ok {α : Type} {m : Dec α} {n : ℕ} {a : α} (h : m s = (.ok a, u)) :
    (decodeTimes m (n + 1) s).1 = .err e ↔ (decodeTimes m n u).1 = .err e := by
  rw [decodeTimes, bind_of_ok h, bind_run]
  rcases decodeTimes m n u with ⟨as | e' | _ | _, t⟩ <;> simp

/-- A plain byte is read where it is within the limit. -/
lemma readVarint_of_plain {marker : UInt8} (hmarker : s.input.elems[s.position]? = some marker)
    (hle : marker.toNat ≤ 250) :
    readVarint s = (do advanceOne s.position; pure marker.toNat) s := by
  rw [readVarint, readMarked, get_bind_run, hmarker, okOr_some, pure_bind_run, if_pos hle]

lemma enforceLimit_cases (s : CompactCursor) (stop : ℕ) :
    ((∀ l, s.limitEnd = some l → stop ≤ l) ∧ enforceLimit stop s = (.ok (), s)) ∨
      ∃ l, s.limitEnd = some l ∧ l < stop ∧ enforceLimit stop s = (.err (.sizeLimit l), s) := by
  rw [enforceLimit, get_bind_run]
  rcases atMost_cases s.limitEnd stop Error.sizeLimit with ⟨hle, h⟩ | ⟨l, hl, hlt, h⟩
  · exact .inl ⟨hle, by rw [h]; rfl⟩
  · exact .inr ⟨l, hl, hlt, by rw [h]; rfl⟩

/-- A run of plain bytes across the limit ends with its error. -/
lemma decodeTimes_across {run : List UInt8} {n l : ℕ} (hplain : ∀ byte ∈ run, byte ≤ 250)
    (hslice : slice s.input.elems s.position (s.position + run.length) = some run)
    (hlimit : s.limitEnd = some l) (hlt : l < s.position + run.length) (hpos : 0 < run.length) :
    (decodeTimes readVarint (run.length + n) s).1 = .err (.sizeLimit l) := by
  induction run generalizing s with
  | nil => exact absurd hpos (Nat.lt_irrefl 0)
  | cons byte run ih =>
      obtain ⟨hbyte, hrun⟩ := List.forall_mem_cons.mp hplain
      have hwindow : Window s.input.elems none s.position ([byte] ++ run) :=
        ⟨hslice, by rintro _ ⟨⟩⟩
      obtain ⟨⟨hhead, -⟩, htail, -⟩ := window_append.mp hwindow
      have hmarker : s.input.elems[s.position]? = some byte := by
        rw [List.length_singleton, slice_one, Option.map_eq_some_iff] at hhead
        obtain ⟨first, hfirst, hsingle⟩ := hhead
        cases hsingle
        exact hfirst
      have hlength : (byte :: run).length + n = run.length + n + 1 := by
        rw [List.length_cons]
        omega
      rw [List.length_cons] at hlt
      rw [hlength]
      rcases enforceLimit_cases s (s.position + 1) with
        ⟨hwithin, -⟩ | ⟨l', hl', hlt', henforce⟩
      · have hread := readVarint_plain hbyte (here_singleton.mpr ⟨hmarker, hwithin⟩)
        have hle := hwithin l hlimit
        exact (decodeTimes_of_ok hread).mpr
          (ih hrun htail hlimit (show l < s.position + 1 + run.length by omega) (by omega))
      · obtain rfl := Option.some.inj (hlimit.symm.trans hl')
        refine decodeTimes_of_err ?_
        rw [readVarint_of_plain hmarker hbyte, advanceOne, bind_assoc, bind_run, henforce]

/-- A run of plain bytes within the limit makes no error. -/
lemma decodeTimes_past {run : List UInt8} {n : ℕ} (hplain : ∀ byte ∈ run, byte ≤ 250)
    (hhere : Tape.Here s run) :
    (decodeTimes readVarint (run.length + n) s).1 = .err e ↔
      (decodeTimes readVarint n (Tape.advance s run.length)).1 = .err e := by
  induction run generalizing s with
  | nil => rw [List.length_nil, Nat.zero_add, Tape.advance_zero]
  | cons byte run ih =>
      obtain ⟨hbyte, hrun⟩ := List.forall_mem_cons.mp hplain
      obtain ⟨hhead, htail⟩ := (Tape.here_append s [byte] run).mp hhere
      have hlength : (byte :: run).length + n = run.length + n + 1 := by
        rw [List.length_cons]
        omega
      have hadvance : Tape.advance s (byte :: run).length
          = Tape.advance (Tape.advance s 1) run.length := by
        rw [Tape.advance_advance, List.length_cons, Nat.add_comm]
      rw [hlength, hadvance, decodeTimes_of_ok (readVarint_plain hbyte hhead)]
      exact ih hrun htail

/-- The loop fails as the varints fail one by one. -/
lemma varintsLoop_eq_err [Platform] {rounds remaining : ℕ} {out : List ℕ}
    (hrounds : remaining ≤ rounds) :
    (CompactCursor.varintsLoop rounds remaining out s).1 = .err e ↔
      (decodeTimes readVarint remaining s).1 = .err e := by
  induction rounds generalizing remaining out s with
  | zero =>
      obtain rfl : remaining = 0 := Nat.le_zero.mp hrounds
      exact iff_of_false (by rintro ⟨⟩) (by rintro ⟨⟩)
  | succ rounds ih =>
      rcases remaining with _ | remaining
      · exact iff_of_false (by rintro ⟨⟩) (by rintro ⟨⟩)
      · have hrounds' := Nat.le_of_succ_le_succ hrounds
        rw [CompactCursor.varintsLoop, get_bind_run]
        rcases hmarker : s.input.elems[s.position]? with _ | marker
        · have herr : (readVarint s).1 = .err .unexpectedEnd := by
            rw [readVarint, readMarked, get_bind_run, hmarker, okOr_none, throw_bind_run]
          rw [okOr_none, throw_bind_run, decodeTimes_of_err herr]
        · rw [okOr_some, pure_bind_run]
          by_cases hle : marker.toNat ≤ 250
          · obtain ⟨run, extra, hextra, hrun, hplain, hmin, hslice⟩ :=
              @plain_window s _ marker remaining hmarker hle
            have hlength : remaining + 1 = run.length + (remaining - extra) := by omega
            have hstop : s.position + 1 + extra = s.position + run.length := by omega
            rw [if_pos hle, hmin]
            rw [hstop] at hslice ⊢
            rw [hslice, hlength]
            rcases enforceLimit_cases s (s.position + run.length) with
              ⟨hlimit, henforce⟩ | ⟨l, hl, hlt, henforce⟩
            · rw [bind_of_ok henforce]
              change (CompactCursor.varintsLoop rounds _ _ (Tape.advance s run.length)).1 = _ ↔ _
              rw [ih (by omega)]
              exact (decodeTimes_past hplain ⟨hslice, hlimit⟩).symm
            · rw [bind_run, henforce, decodeTimes_across hplain hslice hl hlt (by omega)]
          · have hread : readVarint s = (payloadOf s marker >>= fun part =>
                setPosition part.2 >>= fun _ => call (decodeU64 marker part.1)) s := by
              rw [readVarint, readMarked, get_bind_run, hmarker, okOr_some, pure_bind_run,
                if_neg hle]
            have hpayload := (Orderly.payloadOf s marker s).1
            rw [if_neg hle, bind_run]
            rw [bind_run] at hread
            rcases h : payloadOf s marker s with ⟨⟨bytes, stop⟩ | e' | _ | _, v⟩ <;>
              rw [h] at hread hpayload
            · have hdecode := returned_decodeU64 marker bytes
              dsimp only at hread ⊢
              rw [setPosition, modify_bind_run, call_run] at hread
              rw [bind_run, call_run]
              rcases h' : decodeU64 marker bytes with value | e' | _ | _ <;> rw [h'] at hread hdecode
              · rw [decodeTimes_of_ok hread]
                exact ih hrounds'
              · rw [decodeTimes_of_err (congrArg Prod.fst hread)]
              · exact hdecode.elim
              · exact hdecode.elim
            · rw [decodeTimes_of_err (congrArg Prod.fst hread)]
            · exact hpayload.elim
            · exact hpayload.elim

end Decode

/-! ## Both paths -/

/-- Without a reservation that fails, the bulk reader is the loop. -/
lemma readVarintsBulk_run [Platform] {len : ℕ} (h : 8 * len ≤ isizeMax) (cursor : CompactCursor) :
    readVarintsBulk len cursor = CompactCursor.varintsLoop len len [] cursor := by
  rw [readVarintsBulk, tryReserve, if_pos h]
  rfl

lemma readVarintsBulk_eq_ok [Platform] {len : ℕ} (h : 8 * len ≤ isizeMax)
    {cursor t : CompactCursor} {words : List ℕ} :
    readVarintsBulk len cursor = (.ok words, t) ↔
      decodeTimes readVarint len cursor = (.ok words, t) := by
  rw [readVarintsBulk_run h]
  by_cases hcursor : Tape.Here cursor ([] : List UInt8)
  · rw [varintsLoop_eq_ok hcursor (Nat.le_refl len)]
    simp
  · rcases len with _ | len
    · rfl
    · -- outside of the limit the first varint is an error
      have hno : ∀ words t, decodeTimes readVarint (len + 1) cursor ≠ (.ok words, t) := by
        intro words t hok
        obtain ⟨value, u, rest, hread, -⟩ := decodeTimes_succ_eq_ok.mp hok
        exact hcursor (here_of_varint hread)
      refine iff_of_false (fun hloop => ?_) (hno words t)
      have hreturned := (Orderly.readVarint.decodeTimes (len + 1) cursor).1
      rcases hrun : decodeTimes readVarint (len + 1) cursor with ⟨words' | e | _ | _, u⟩
      · exact hno words' u hrun
      · have herr := (@varintsLoop_eq_err cursor e _ _ _ [] (Nat.le_refl (len + 1))).mpr
          (congrArg Prod.fst hrun)
        rw [hloop] at herr
        cases herr
      · rw [hrun] at hreturned
        exact hreturned
      · rw [hrun] at hreturned
        exact hreturned

/-- The bulk paths of varints: on every sink that takes texts piece by piece, the elements of a
vector of integers are written as one by one; and wherever the vector can be reserved, the bulk
reader has the result of as many varints, and leaves the cursor where they do. -/
theorem varint_paths_agree [Platform] {W : Type} [ContainerWriter W] [Additive W] (w : VarWidth)
    (s : Scalar) (hs : s = .unsigned w ∨ s = .signed w) :
    (∀ (values : List s.Value) (sink sink' : W),
      s.encodeElements values sink = (.ok (), sink') ↔
        encodeAll s.encode values sink = (.ok (), sink')) ∧
    ∀ (cursor : CompactCursor) (len : ℕ), 8 * len ≤ isizeMax →
      (readVarintsBulk len cursor).1 = (decodeTimes readVarint len cursor).1 ∧
        ∀ words t, readVarintsBulk len cursor = (.ok words, t) ↔
          decodeTimes readVarint len cursor = (.ok words, t) := by
  constructor
  · intro values sink sink'
    rcases hs with rfl | rfl
    · exact encodeVarintsBulk_eq_ok fun value _ => word_lt value
    · have hword : (fun value : BitVec w.bits =>
          encodeVarint (W := W) (zigzagEncode value.toInt % 2 ^ 64)) =
            fun value => encodeVarint (zigzagEncode value.toInt) :=
        funext fun value => congrArg encodeVarint (Nat.mod_eq_of_lt (zigzag_lt value))
      have h := @encodeVarintsBulk_eq_ok W _ _ sink sink' _
        (fun value : BitVec w.bits => zigzagEncode value.toInt % 2 ^ 64) values
        fun value _ => Nat.mod_lt _ (by decide)
      rw [hword] at h
      exact h
  · intro cursor len hlen
    have hok := fun words t => @readVarintsBulk_eq_ok _ len hlen cursor t words
    refine ⟨?_, hok⟩
    have hreturned := (Orderly.readVarint.decodeTimes len cursor).1
    rcases hrun : decodeTimes readVarint len cursor with ⟨words | e | _ | _, u⟩ <;>
      rw [hrun] at hreturned
    · rw [(hok words u).mpr hrun]
    · rw [readVarintsBulk_run hlen]
      exact (varintsLoop_eq_err (Nat.le_refl len)).mpr (congrArg Prod.fst hrun)
    · exact hreturned.elim
    · exact hreturned.elim

section Samples

attribute [local instance] Platform.sample

theorem varint_paths_agree_sample :
    encodeAll (Scalar.unsigned .w16).encode ([5, 300] : List (BitVec 16))
        (BoundedWriter.new ⟨[]⟩ .standard : BoundedWriter VecWriter) =
      (.ok (), { BoundedWriter.new ⟨[5, 251, 44, 1]⟩ .standard with written := 4 }) := by
  obtain ⟨hencode, -⟩ := @varint_paths_agree _ (BoundedWriter VecWriter) _ _ .w16
    (.unsigned .w16) (.inl rfl)
  exact (hencode ([5, 300] : List (BitVec 16)) _ _).mp rfl

end Samples

end RustBinary.Compact
