import RustBinary.Compact.Reading
import RustBinary.Compact.Sinks
import Mathlib.Data.List.TakeWhile

/-!
# The fast paths of vectors

A vector of bytes, floats or `u64` is not decoded element by element.  The bytes are gathered at
once, and gather the same vector; but a vector of `i8`, and one of floats at an aligned address, is
then copied into an empty vector, and that aborts.
-/

namespace RustBinary.Compact

open Lib Lib.Act CompactCursor

/-! ## Element by element -/

lemma spells_tryReserve (size count : ℕ) :
    Spells Anywhere (tryReserve size count) fun _ (bs : List UInt8) =>
      size * count ≤ isizeMax ∧ bs = [] := by
  refine ((Spells.pure ()).ite (spells_throw _)).congr fun _ bs => ?_
  split
  · next h => simp [h]
  · next h => simp [h]

section Times

variable {α : Type} {G : CompactCursor → Prop} {m : Dec α} {p : α → Prop} {w : α → List UInt8}

lemma spells_decodeTimes (hG : Steady G) (h : Spells G m fun a bs => p a ∧ bs = w a) (n : ℕ) :
    Spells G (decodeTimes m n) fun values bs =>
      values.length = n ∧ Every p values ∧ bs = values.flatMap w := by
  induction n with
  | zero =>
      refine (Spells.pure []).congr fun values bs => ?_
      constructor
      · rintro ⟨rfl, rfl⟩
        exact ⟨rfl, List.forall_mem_nil _, rfl⟩
      · rintro ⟨hlen, -, rfl⟩
        obtain rfl := List.length_eq_zero_iff.mp hlen
        exact ⟨rfl, rfl⟩
  | succ n ih =>
      refine (h.bind hG fun a => ih.bind hG fun rest => Spells.pure (a :: rest)).congr
        fun values bs => ?_
      constructor
      · rintro ⟨a, xs, _, ⟨ha, rfl⟩, ⟨rest, ys, _, ⟨hlen, hrest, rfl⟩, ⟨rfl, rfl⟩, rfl⟩, rfl⟩
        refine ⟨by rw [List.length_cons, hlen], List.forall_mem_cons.mpr ⟨ha, hrest⟩, ?_⟩
        rw [List.append_nil, List.flatMap_cons]
      · rintro ⟨hlen, hall, rfl⟩
        rcases values with _ | ⟨a, rest⟩
        · cases hlen
        · obtain ⟨ha, hrest⟩ := List.forall_mem_cons.mp hall
          exact ⟨a, _, _, ⟨ha, rfl⟩, ⟨rest, _, [], ⟨Nat.succ.inj hlen, hrest, rfl⟩, ⟨rfl, rfl⟩,
            (List.append_nil _).symm⟩, rfl⟩

lemma decodeTimes_succ_eq_ok {s t : CompactCursor} {n : ℕ} {values : List α} :
    decodeTimes m (n + 1) s = (.ok values, t) ↔
      ∃ a u rest, m s = (.ok a, u) ∧ decodeTimes m n u = (.ok rest, t) ∧ values = a :: rest := by
  rw [decodeTimes, bind_eq_ok]
  constructor
  · rintro ⟨a, u, hm, h⟩
    obtain ⟨rest, _, hrest, hpure⟩ := bind_eq_ok.mp h
    cases hpure
    exact ⟨a, u, rest, hm, hrest, rfl⟩
  · rintro ⟨a, u, rest, hm, hrest, rfl⟩
    exact ⟨a, u, hm, bind_eq_ok.mpr ⟨rest, t, hrest, rfl⟩⟩

end Times

/-! ## The bulk reader of varints -/

section Varints

variable {s t : CompactCursor}

/-- A plain byte is a varint. -/
lemma readVarint_plain {byte : UInt8} (hplain : byte ≤ 250) (hhere : Tape.Here s [byte]) :
    readVarint s = (.ok byte.toNat, Tape.advance s 1) := by
  have hle : byte.toNat ≤ 250 := hplain
  have hspell : encodeVarintLe byte.toNat = [byte] := by
    rw [encodeVarintLe_eq, varintBy_of_le hle, UInt8.ofNat_toNat]
  exact (spells_readVarint s trivial hhere.nil _ _).mpr
    ⟨[byte], ⟨hle.trans (by decide), hspell.symm⟩, hhere, rfl⟩

/-- A run of plain bytes is as many varints. -/
lemma decodeTimes_plain {run : List UInt8} (hplain : ∀ byte ∈ run, byte ≤ 250)
    (hhere : Tape.Here s run) {n : ℕ} {words : List ℕ} :
    decodeTimes readVarint (run.length + n) s = (.ok words, t) ↔
      ∃ rest, words = run.map UInt8.toNat ++ rest ∧
        decodeTimes readVarint n (Tape.advance s run.length) = (.ok rest, t) := by
  induction run generalizing s words with
  | nil => simp [Tape.advance_zero]
  | cons byte run ih =>
      obtain ⟨hbyte, hrun⟩ := List.forall_mem_cons.mp hplain
      obtain ⟨hhead, htail⟩ := (Tape.here_append s [byte] run).mp hhere
      have hread := readVarint_plain hbyte hhead
      have hadvance : Tape.advance (Tape.advance s 1) run.length
          = Tape.advance s (run.length + 1) := by
        rw [Tape.advance_advance, Nat.add_comm]
      have hlength : run.length + 1 + n = run.length + n + 1 := by omega
      rw [List.length_cons, hlength, decodeTimes_succ_eq_ok, List.map_cons, ← hadvance]
      constructor
      · rintro ⟨a, u, rest, ha, hrest, rfl⟩
        obtain ⟨⟨⟩, rfl⟩ := Prod.mk.inj (hread.symm.trans ha)
        obtain ⟨rest', rfl, hrest'⟩ := (ih hrun htail).mp hrest
        exact ⟨rest', rfl, hrest'⟩
      · rintro ⟨rest, rfl, hrest⟩
        exact ⟨_, _, _, hread, (ih hrun htail).mpr ⟨rest, rfl, hrest⟩, rfl⟩

lemma length_le_varints (words : List ℕ) :
    words.length ≤ (words.flatMap encodeVarintLe).length := by
  induction words with
  | nil => exact Nat.le_refl _
  | cons word words ih =>
      have hpos := (Scripted.length_encodeVarintLe word).1
      rw [List.flatMap_cons, List.length_append, List.length_cons]
      omega

/-- Every varint takes a byte, within the limit. -/
lemma limit_of_decodeTimes {n : ℕ} {words : List ℕ} (hhere : Tape.Here s ([] : List UInt8))
    (h : decodeTimes readVarint n s = (.ok words, t)) :
    ∀ l, s.limitEnd = some l → s.position + n ≤ l := by
  obtain ⟨bs, ⟨hlen, -, rfl⟩, ⟨-, hlimit⟩, -⟩ :=
    (spells_decodeTimes steady_anywhere spells_readVarint n s trivial hhere words t).mp h
  have hle := length_le_varints words
  intro l hl
  have := hlimit l hl
  omega

/-- A round that starts with a plain byte takes the run of plain bytes. -/
lemma plain_window [Platform] {marker : UInt8} {remaining : ℕ}
    (hmarker : s.input.elems[s.position]? = some marker) (hle : marker.toNat ≤ 250) :
    ∃ run : List UInt8, ∃ extra, extra ≤ remaining ∧ run.length = extra + 1 ∧
      (∀ byte ∈ run, byte ≤ 250) ∧
      min (Adaptive.plainVarintPrefix Platform.backend ((s.input.elems.drop (s.position + 1)).take
        (min remaining (s.input.elems.drop (s.position + 1)).length))) remaining = extra ∧
      slice s.input.elems s.position (s.position + 1 + extra) = some run := by
  obtain ⟨hlt, hget⟩ := List.getElem?_eq_some_iff.mp hmarker
  rw [Adaptive.plainVarintPrefix_eq]
  set available := s.input.elems.drop (s.position + 1) with havailable
  set window := available.take (min remaining available.length) with hwindow
  set plain := (window.takeWhile fun byte => byte ≤ 250) with hplain
  have hprefix : plain <+: available :=
    (List.takeWhile_prefix _).trans (List.take_prefix _ _)
  have hlen : plain.length ≤ remaining := by
    have h₁ := (List.takeWhile_prefix (l := window) fun byte => decide (byte ≤ 250)).length_le
    have h₂ := List.length_take_le (min remaining available.length) available
    have h₃ := Nat.min_le_left remaining available.length
    exact h₁.trans (h₂.trans h₃)
  refine ⟨marker :: plain, plain.length, hlen, List.length_cons, ?_, Nat.min_eq_left hlen, ?_⟩
  · refine List.forall_mem_cons.mpr ⟨hle, fun byte hbyte => ?_⟩
    simpa using List.mem_takeWhile_imp hbyte
  · obtain ⟨rest, hrest⟩ := hprefix
    have hdrop : s.input.elems.drop s.position = marker :: plain ++ rest := by
      rw [List.drop_eq_getElem_cons hlt, hget, List.cons_append, hrest]
    have hlength := congrArg List.length hdrop
    rw [List.length_drop, List.length_append, List.length_cons] at hlength
    refine slice_eq_some.mpr ⟨by omega, by omega, ?_⟩
    have hcount : s.position + 1 + plain.length - s.position = (marker :: plain).length := by
      rw [List.length_cons]
      omega
    rw [hdrop, hcount, List.take_left]

/-- A marked varint, where the cursor goes on only behind a canonical one. -/
lemma readVarint_marked {marker : UInt8} {value : ℕ}
    (hmarker : s.input.elems[s.position]? = some marker) (hle : ¬ marker.toNat ≤ 250) :
    readVarint s = (.ok value, t) ↔
      ∃ bytes stop u, payloadOf s marker s = (.ok (bytes, stop), u) ∧
        decodeU64 marker bytes = .ok value ∧ t = { u with position := stop } := by
  rw [readVarint, readMarked, get_bind_run, hmarker, okOr_some, pure_bind_run, if_neg hle,
    bind_eq_ok]
  simp only [setPosition, modify_bind_run, call_run, Prod.mk.injEq]
  constructor
  · rintro ⟨⟨bytes, stop⟩, u, hpayload, hdecode, rfl⟩
    exact ⟨bytes, stop, u, hpayload, hdecode, rfl⟩
  · rintro ⟨bytes, stop, u, hpayload, hdecode, rfl⟩
    exact ⟨(bytes, stop), u, hpayload, hdecode, rfl⟩

lemma here_behind {bs : List UInt8} (h : Tape.Here s bs) :
    Tape.Here (Tape.advance s bs.length) ([] : List UInt8) :=
  ((Tape.here_append s bs []).mp (by rwa [List.append_nil])).2

lemma here_of_readVarint {value : ℕ} (hhere : Tape.Here s ([] : List UInt8))
    (h : readVarint s = (.ok value, t)) : Tape.Here t ([] : List UInt8) := by
  obtain ⟨bs, -, hbs, rfl⟩ := (spells_readVarint s trivial hhere _ _).mp h
  exact here_behind hbs

/-- The loop reads what the varints spell one by one. -/
lemma varintsLoop_eq_ok [Platform] {rounds remaining : ℕ} {out words : List ℕ}
    (hhere : Tape.Here s ([] : List UInt8)) (hrounds : remaining ≤ rounds) :
    CompactCursor.varintsLoop rounds remaining out s = (.ok words, t) ↔
      ∃ rest, words = out ++ rest ∧ decodeTimes readVarint remaining s = (.ok rest, t) := by
  induction rounds generalizing remaining out s with
  | zero =>
      obtain rfl : remaining = 0 := Nat.le_zero.mp hrounds
      simp [CompactCursor.varintsLoop, decodeTimes, eq_comm]
  | succ rounds ih =>
      rcases remaining with _ | remaining
      · simp [CompactCursor.varintsLoop, decodeTimes, eq_comm]
      · have hrounds' := Nat.le_of_succ_le_succ hrounds
        rw [CompactCursor.varintsLoop, get_bind_run]
        rcases hmarker : s.input.elems[s.position]? with _ | marker
        · rw [okOr_none, throw_bind_run]
          refine iff_of_false (by rintro ⟨⟩) ?_
          rintro ⟨rest, -, hrest⟩
          obtain ⟨value, u, -, hread, -⟩ := decodeTimes_succ_eq_ok.mp hrest
          rw [readVarint, readMarked, get_bind_run, hmarker, okOr_none, throw_bind_run] at hread
          cases hread
        · rw [okOr_some, pure_bind_run]
          by_cases hle : marker.toNat ≤ 250
          · obtain ⟨run, extra, hextra, hrun, hplain, hmin, hslice⟩ :=
              @plain_window s _ marker remaining hmarker hle
            have hlength : remaining + 1 = run.length + (remaining - extra) := by omega
            have hstop : s.position + 1 + extra = s.position + run.length := by omega
            rw [if_pos hle, hmin]
            rw [hstop] at hslice ⊢
            rw [hslice, hlength, bind_eq_ok]
            constructor
            · rintro ⟨_, u, henforce, hnext⟩
              obtain ⟨hlimit, hu⟩ := enforceLimit_eq_ok.mp henforce
              subst u
              change CompactCursor.varintsLoop rounds _ _ (Tape.advance s run.length) = _ at hnext
              have hherun : Tape.Here s run := ⟨hslice, hlimit⟩
              obtain ⟨rest, rfl, hrest⟩ := (ih (here_behind hherun) (by omega)).mp hnext
              exact ⟨run.map UInt8.toNat ++ rest, List.append_assoc _ _ _,
                (decodeTimes_plain hplain hherun).mpr ⟨rest, rfl, hrest⟩⟩
            · rintro ⟨rest, rfl, hrest⟩
              have hlimit := limit_of_decodeTimes hhere hrest
              have hlimit' : ∀ l, s.limitEnd = some l → s.position + run.length ≤ l :=
                fun l hl => by have := hlimit l hl; omega
              have hherun : Tape.Here s run := ⟨hslice, hlimit'⟩
              obtain ⟨rest', rfl, hrest'⟩ := (decodeTimes_plain hplain hherun).mp hrest
              refine ⟨(), s, enforceLimit_eq_ok.mpr ⟨hlimit', rfl⟩, ?_⟩
              change CompactCursor.varintsLoop rounds _ _ (Tape.advance s run.length) = _
              exact (ih (here_behind hherun) (by omega)).mpr
                ⟨rest', (List.append_assoc _ _ _).symm, hrest'⟩
          · rw [if_neg hle, bind_eq_ok]
            simp only [decodeTimes_succ_eq_ok, readVarint_marked hmarker hle]
            constructor
            · rintro ⟨⟨bytes, stop⟩, u, hpayload, hround⟩
              obtain ⟨value, u', hcall, hnext⟩ := bind_eq_ok.mp hround
              obtain ⟨hdecode, hu'⟩ := Prod.mk.inj hcall
              subst u'
              have hread := (readVarint_marked hmarker hle).mpr
                ⟨bytes, stop, u, hpayload, hdecode, rfl⟩
              obtain ⟨rest, rfl, hrest⟩ := (ih (here_of_readVarint hhere hread) hrounds').mp hnext
              exact ⟨value :: rest, List.append_assoc _ _ _,
                value, _, rest, ⟨bytes, stop, u, hpayload, hdecode, rfl⟩, hrest, rfl⟩
            · rintro ⟨_, rfl, value, _, rest, ⟨bytes, stop, u, hpayload, hdecode, rfl⟩, hrest, rfl⟩
              have hread := (readVarint_marked hmarker hle).mpr
                ⟨bytes, stop, u, hpayload, hdecode, rfl⟩
              refine ⟨(bytes, stop), u, hpayload, bind_eq_ok.mpr ⟨value, u, ?_, ?_⟩⟩
              · exact congrArg (·, u) hdecode
              · exact (ih (here_of_readVarint hhere hread) hrounds').mpr
                  ⟨rest, List.append_cons _ _ _, hrest⟩

lemma spells_readVarintsBulk [Platform] (len : ℕ) :
    Spells Anywhere (readVarintsBulk len) fun words bs =>
      8 * len ≤ isizeMax ∧ words.length = len ∧ Every (fun word => word ≤ u64Max) words ∧
        bs = words.flatMap encodeVarintLe := by
  have hloop : Spells Anywhere (CompactCursor.varintsLoop len len [] : Dec (List ℕ)) fun words bs =>
      words.length = len ∧ Every (fun word => word ≤ u64Max) words ∧
        bs = words.flatMap encodeVarintLe := by
    intro s hs hhere words t
    rw [varintsLoop_eq_ok hhere (Nat.le_refl _),
      ← spells_decodeTimes steady_anywhere spells_readVarint len s hs hhere words t]
    simp
  refine ((spells_tryReserve 8 len).bind steady_anywhere fun _ => hloop).congr fun words bs => ?_
  constructor
  · rintro ⟨_, _, _, ⟨hsize, rfl⟩, ⟨hlen, hwords, rfl⟩, rfl⟩
    exact ⟨hsize, hlen, hwords, rfl⟩
  · rintro ⟨hsize, hlen, hwords, rfl⟩
    exact ⟨(), [], _, ⟨hsize, rfl⟩, ⟨hlen, hwords, rfl⟩, rfl⟩

end Varints

/-! ## What a vector gathers -/

namespace Scalar

/-- The floats in the chunks of a payload. -/
def floats (w : FloatWidth) (len : ℕ) (bytes : List UInt8) : List (BitVec w.bits) :=
  (List.range len).map fun i =>
    BitVec.ofNat w.bits (leNat ((bytes.drop (w.bytes * i)).take w.bytes))

/-- The elements of a vector as they are before they are copied into it. -/
def gather [Platform] : (s : Scalar) → ℕ → Dec (List s.Value)
  | .i8, len => do
      let bytes ← take len
      tryReserve 1 len
      pure (bytes.map UInt8.toInt8)
  | .float w, len => do
      let byteLen ← okOr (checkedMul len w.bytes) (.integerOverflow "usize")
      let bytes ← take byteLen
      tryReserve w.bytes len
      pure (floats w len bytes)
  | s, len => s.decodeVec len

/-- Whether the elements behind `address` are copied into the vector. -/
def Copied [Target] : (s : Scalar) → ℕ → Prop
  | .i8, _ => True
  | .float w, address => Target.littleEndian ∧ address % w.bytes = 0
  | _, _ => False

/-- One element after the other. -/
def decodeEach [Platform] (s : Scalar) (len : ℕ) : Dec (List s.Value) := do
  tryReserve (Platform.size (.scalar s)) len
  decodeTimes s.decode len

/-- What the elements of a vector of `len` are, and how they are spelled. -/
def Elements (s : Scalar) (len : ℕ) (values : List s.Value) (bs : List UInt8) : Prop :=
  s.size * len ≤ isizeMax ∧ values.length = len ∧ Every s.Allocated values ∧
    bs = values.flatMap s.wire

lemma spells_decodeEach [Platform] (s : Scalar) (len : ℕ) :
    Spells Anywhere (s.decodeEach len) (s.Elements len) := by
  rw [decodeEach, Platform.size_scalar]
  refine ((spells_tryReserve s.size len).bind steady_anywhere fun _ =>
    spells_decodeTimes steady_anywhere s.spells len).congr fun values bs => ?_
  constructor
  · rintro ⟨_, _, _, ⟨hsize, rfl⟩, ⟨hlen, hall, rfl⟩, rfl⟩
    exact ⟨hsize, hlen, hall, rfl⟩
  · rintro ⟨hsize, hlen, hall, rfl⟩
    exact ⟨(), [], _, ⟨hsize, rfl⟩, ⟨hlen, hall, rfl⟩, rfl⟩

/-- Bytes that are taken at once. -/
lemma spells_takeAll {α : Type} {f : UInt8 → α} {g : α → UInt8} (hfg : ∀ a, f (g a) = a)
    (hgf : ∀ byte, g (f byte) = byte) (len : ℕ) :
    Spells Anywhere (do
      let bytes ← take len
      tryReserve 1 len
      pure (bytes.map f)) fun values bs =>
        len ≤ isizeMax ∧ values.length = len ∧ bs = values.flatMap fun a => [g a] := by
  refine ((spells_take len).bind steady_anywhere fun bytes =>
    (spells_tryReserve 1 len).bind steady_anywhere fun _ => Spells.pure (bytes.map f)).congr
      fun values bs => ?_
  have hmap : ∀ bytes : List UInt8, (bytes.map f).flatMap (fun a => [g a]) = bytes := by
    intro bytes
    rw [List.flatMap_map, ← List.map_eq_flatMap]
    simp [hgf]
  constructor
  · rintro ⟨_, xs, _, ⟨rfl, rfl, hle⟩, ⟨_, _, _, ⟨-, rfl⟩, ⟨rfl, rfl⟩, rfl⟩, rfl⟩
    exact ⟨hle, List.length_map _, by rw [hmap, List.append_nil, List.append_nil]⟩
  · rintro ⟨hle, rfl, rfl⟩
    rw [← List.map_eq_flatMap]
    refine ⟨_, _, [], ⟨rfl, List.length_map _, hle⟩,
      ⟨(), [], [], ⟨by rwa [Nat.one_mul], rfl⟩, ⟨?_, rfl⟩, rfl⟩, (List.append_nil _).symm⟩
    have hid : f ∘ g = id := funext hfg
    rw [List.map_map, hid, List.map_id]

/-! ### Floats -/

section Floats

variable {w : FloatWidth}

lemma floats_succ {len : ℕ} {chunk bytes : List UInt8} (h : chunk.length = w.bytes) :
    floats w (len + 1) (chunk ++ bytes) =
      BitVec.ofNat w.bits (leNat chunk) :: floats w len bytes := by
  have hdrop : ∀ i, (chunk ++ bytes).drop (w.bytes * (i + 1)) = bytes.drop (w.bytes * i) := by
    intro i
    rw [Nat.mul_add, Nat.mul_one, Nat.add_comm, ← h, ← List.drop_drop, List.drop_left]
  rw [floats, List.range_succ_eq_map, List.map_cons, List.map_map]
  congr 1
  · rw [Nat.mul_zero, List.drop_zero, ← h, List.take_left]
  · refine List.map_congr_left fun i _ => ?_
    rw [Function.comp_apply, Nat.succ_eq_add_one, hdrop]

lemma float_word (value : BitVec w.bits) :
    BitVec.ofNat w.bits (leNat (leBytes w.bytes value.toNat)) = value := by
  have hpow : 256 ^ w.bytes = 2 ^ w.bits := by
    rw [FloatWidth.bits, pow_mul]
    norm_num
  rw [leNat_leBytes (hpow ▸ value.isLt), BitVec.ofNat_toNat, BitVec.setWidth_eq]

lemma float_bytes {chunk : List UInt8} (h : chunk.length = w.bytes) :
    leBytes w.bytes (BitVec.ofNat w.bits (leNat chunk)).toNat = chunk := by
  have hpow : 256 ^ w.bytes = 2 ^ w.bits := by
    rw [FloatWidth.bits, pow_mul]
    norm_num
  have hlt : leNat chunk < 2 ^ w.bits := by
    rw [← hpow, ← h]
    exact leNat_lt chunk
  rw [BitVec.toNat_ofNat, Nat.mod_eq_of_lt hlt, ← h, leBytes_leNat]

lemma length_floats (len : ℕ) (bytes : List UInt8) : (floats w len bytes).length = len := by
  rw [floats, List.length_map, List.length_range]

lemma length_floatBytes (values : List (BitVec w.bits)) :
    (values.flatMap fun value => leBytes w.bytes value.toNat).length = w.bytes * values.length := by
  induction values with
  | nil => rfl
  | cons value values ih =>
      rw [List.flatMap_cons, List.length_append, length_leBytes, ih, List.length_cons, Nat.mul_add,
        Nat.mul_one, Nat.add_comm]

/-- The chunks of a payload are its floats. -/
lemma floats_eq_iff {len : ℕ} {bytes : List UInt8} (h : bytes.length = w.bytes * len)
    {values : List (BitVec w.bits)} :
    values = floats w len bytes ↔
      values.length = len ∧ bytes = values.flatMap fun value => leBytes w.bytes value.toNat := by
  induction len generalizing bytes values with
  | zero =>
      obtain rfl := List.length_eq_zero_iff.mp h
      rw [List.length_eq_zero_iff]
      constructor
      · rintro rfl
        exact ⟨rfl, rfl⟩
      · rintro ⟨rfl, -⟩
        rfl
  | succ len ih =>
      rw [Nat.mul_add, Nat.mul_one] at h
      have hchunk : (bytes.take w.bytes).length = w.bytes := by
        rw [List.length_take]
        omega
      have hrest : (bytes.drop w.bytes).length = w.bytes * len := by
        rw [List.length_drop]
        omega
      have hsucc := @floats_succ w len _ (bytes.drop w.bytes) hchunk
      rw [List.take_append_drop] at hsucc
      rw [hsucc]
      constructor
      · rintro rfl
        obtain ⟨hlen, hbytes⟩ := (ih hrest).mp rfl
        refine ⟨by rw [List.length_cons, hlen], ?_⟩
        rw [List.flatMap_cons, ← hbytes, float_bytes hchunk, List.take_append_drop]
      · rintro ⟨hlen, hbytes⟩
        rcases values with _ | ⟨value, values⟩
        · cases hlen
        · have hword : (leBytes w.bytes value.toNat).length = w.bytes := length_leBytes _ _
          rw [List.flatMap_cons] at hbytes
          have htake : bytes.take w.bytes = leBytes w.bytes value.toNat := by
            rw [hbytes, List.take_left' hword]
          have hdrop : bytes.drop w.bytes
              = values.flatMap fun value => leBytes w.bytes value.toNat := by
            rw [hbytes, List.drop_left' hword]
          rw [htake, float_word, ← (ih hrest).mpr ⟨Nat.succ.inj hlen, hdrop⟩]

end Floats

variable [Platform]

lemma spells_gatherFloats (w : FloatWidth) (len : ℕ) :
    Spells Anywhere ((Scalar.float w).gather len) ((Scalar.float w).Elements len) := by
  refine ((spells_okOr (checkedMul len w.bytes) _).bind steady_anywhere fun byteLen =>
    (spells_take byteLen).bind steady_anywhere fun bytes =>
      (spells_tryReserve w.bytes len).bind steady_anywhere fun _ =>
        Spells.pure (floats w len bytes)).congr fun values bs => ?_
  have hcomm := Nat.mul_comm len w.bytes
  constructor
  · rintro ⟨_, _, _, ⟨hmul, rfl⟩, ⟨_, _, _, ⟨rfl, hlen, hle⟩, ⟨_, _, _, ⟨-, rfl⟩, ⟨hvalues, rfl⟩,
      rfl⟩, rfl⟩, rfl⟩
    rw [checkedMul, Option.ite_none_right_eq_some, Option.some.injEq] at hmul
    obtain ⟨-, rfl⟩ := hmul
    rw [hcomm] at hlen hle
    obtain ⟨hcount, hbytes⟩ := (floats_eq_iff hlen).mp hvalues
    refine ⟨hle, hcount, fun _ _ => trivial, ?_⟩
    rw [List.nil_append, List.append_nil, List.append_nil]
    exact hbytes
  · rintro ⟨hle, hcount, -, rfl⟩
    have hlen : (List.flatMap (Scalar.float w).wire values).length = w.bytes * len :=
      (length_floatBytes values).trans (congrArg _ hcount)
    have hle' : len * w.bytes ≤ isizeMax := hcomm ▸ hle
    have hmul : checkedMul len w.bytes = some (len * w.bytes) :=
      if_pos (hle'.trans (by decide))
    exact ⟨_, [], _, ⟨hmul, rfl⟩, ⟨_, _, [], ⟨rfl, hlen.trans hcomm.symm, hle'⟩,
      ⟨(), [], [], ⟨hle, rfl⟩, ⟨(floats_eq_iff hlen).mpr ⟨hcount, rfl⟩, rfl⟩, rfl⟩,
      (List.append_nil _).symm⟩, rfl⟩

lemma spells_words (len : ℕ) :
    Spells Anywhere (do
      let words ← readVarintsBulk len
      pure (words.map (BitVec.ofNat 64))) fun values bs =>
        8 * len ≤ isizeMax ∧ values.length = len ∧
          bs = values.flatMap fun value => encodeVarintLe value.toNat := by
  refine (Spells.bind_pure (spells_readVarintsBulk len) (List.map (BitVec.ofNat 64))).congr
    fun values bs => ?_
  constructor
  · rintro ⟨words, ⟨hsize, hlen, hwords, rfl⟩, rfl⟩
    refine ⟨hsize, by rw [List.length_map, hlen], ?_⟩
    rw [List.flatMap_map, List.flatMap_def, List.flatMap_def]
    refine congrArg List.flatten (List.map_congr_left fun word hword => ?_)
    have hlt : word < 2 ^ 64 := Nat.lt_succ_of_le (hwords word hword)
    rw [BitVec.toNat_ofNat, Nat.mod_eq_of_lt hlt]
  · rintro ⟨hsize, hlen, rfl⟩
    refine ⟨values.map BitVec.toNat, ⟨hsize, by rw [List.length_map, hlen], ?_, ?_⟩, ?_⟩
    · exact List.forall_mem_map.mpr fun value _ => Nat.le_of_lt_succ value.isLt
    · rw [List.flatMap_map]
    · have hid : BitVec.ofNat 64 ∘ BitVec.toNat = id := by
        funext value
        rw [Function.comp_apply, BitVec.ofNat_toNat, BitVec.setWidth_eq]
        rfl
      rw [List.map_map, hid, List.map_id]

omit [Platform] in
/-- A gathering of elements all of which fit. -/
lemma spells_elements {s : Scalar} {len size : ℕ} {m : Dec (List s.Value)}
    (hsize : size = s.size * len)
    (h : Spells Anywhere m fun values bs =>
      size ≤ isizeMax ∧ values.length = len ∧ bs = values.flatMap s.wire)
    (hall : ∀ value, s.Allocated value) : Spells Anywhere m (s.Elements len) := by
  subst hsize
  refine h.congr fun values bs => ?_
  constructor
  · rintro ⟨hle, hlen, hbs⟩
    exact ⟨hle, hlen, fun value _ => hall value, hbs⟩
  · rintro ⟨hle, hlen, -, hbs⟩
    exact ⟨hle, hlen, hbs⟩

/-- The fast paths gather what the elements spell one by one. -/
lemma spells_gather (s : Scalar) (len : ℕ) : Spells Anywhere (s.gather len) (s.Elements len) := by
  cases s with
  | u8 =>
      have h := spells_takeAll (f := fun byte : UInt8 => byte) (g := fun byte => byte)
        (fun _ => rfl) (fun _ => rfl) len
      simp only [List.map_id'] at h
      exact spells_elements (Nat.one_mul len).symm h fun _ => trivial
  | i8 =>
      have h := spells_takeAll (f := UInt8.toInt8) (g := Int8.toUInt8) (fun _ => rfl)
        (fun _ => rfl) len
      exact spells_elements (Nat.one_mul len).symm h fun _ => trivial
  | unsigned w =>
      cases w with
      | w64 => exact spells_elements rfl (spells_words len) fun _ => trivial
      | _ => exact spells_decodeEach _ len
  | float w => exact spells_gatherFloats w len
  | _ => exact spells_decodeEach _ len

instance : (s : Scalar) → (address : ℕ) → Decidable (s.Copied address)
  | .i8, _ => isTrue trivial
  | .float _, _ => instDecidableAnd
  | .unit, _ | .bool, _ | .u8, _ | .unsigned _, _ | .signed _, _ | .u128, _ | .i128, _ | .char, _
  | .string, _ | .bytes, _ => isFalse id

/-- What is gathered is then copied, or is the vector. -/
lemma decodeVec_run (s : Scalar) (len : ℕ) (cursor : CompactCursor) :
    s.decodeVec len cursor = (do
      let values ← s.gather len
      if s.Copied (cursor.address + cursor.position) then copyFromSlice [] values
      else pure values) cursor := by
  have hplain : s.decodeVec len = s.gather len → ¬ s.Copied (cursor.address + cursor.position) →
      s.decodeVec len cursor = (do
        let values ← s.gather len
        if s.Copied (cursor.address + cursor.position) then copyFromSlice [] values
        else pure values) cursor := by
    intro hgather hcopied
    simp only [if_neg hcopied, bind_pure, hgather]
  cases s with
  | i8 =>
      have hcopied : Scalar.i8.Copied (cursor.address + cursor.position) := trivial
      have hdecode : Scalar.i8.decodeVec len = (do
          let bytes ← take len
          tryReserve 1 len
          copyFromSlice [] (bytes.map UInt8.toInt8)) := rfl
      have hgather : Scalar.i8.gather len = (do
          let bytes ← take len
          tryReserve 1 len
          pure (bytes.map UInt8.toInt8)) := rfl
      simp only [if_pos hcopied, hdecode, hgather, bind_assoc, pure_bind]
  | float w =>
      have hdecode : (Scalar.float w).decodeVec len = readFloatVec w len := rfl
      have hgather : (Scalar.float w).gather len = (do
          let byteLen ← okOr (checkedMul len w.bytes) (.integerOverflow "usize")
          let bytes ← take byteLen
          tryReserve w.bytes len
          pure (floats w len bytes)) := rfl
      rw [hdecode, hgather, readFloatVec]
      simp only [bind_assoc]
      cases checkedMul len w.bytes with
      | none => rfl
      | some byteLen =>
          simp only [okOr_some, pure_bind_run, get_bind_run]
          refine congrFun (bind_congr fun bytes => bind_congr fun _ => ?_) cursor
          exact if_congr Iff.rfl rfl rfl
  | unsigned w => cases w <;> exact hplain rfl id
  | _ => exact hplain rfl id

end Scalar

/-! ## Coming back -/

/-- A reader comes back, and leaves the open collections alone. -/
def Orderly {α : Type} (m : Dec α) : Prop := ∀ s, (m s).1.Returned ∧ (m s).2.depth = s.depth

lemma returned_decodeU64 (marker : UInt8) (bytes : List UInt8) :
    (decodeU64 marker bytes).Returned := by
  rw [decodeU64]
  split
  · refine Outcome.bind_returned (Outcome.okOr_returned _ _) fun value => ?_
    split <;> trivial
  · exact Outcome.okOr_returned _ _

namespace Orderly

variable {α β : Type} {m : Dec α}

lemma pure (a : α) : Orderly (pure a) := fun _ => ⟨trivial, rfl⟩

lemma throw (e : Error) : Orderly (throw e : Dec α) := fun _ => ⟨trivial, rfl⟩

lemma bind {f : α → Dec β} (hm : Orderly m) (hf : ∀ a, Orderly (f a)) : Orderly (m >>= f) := by
  intro s
  obtain ⟨hreturned, hdepth⟩ := hm s
  rw [bind_run]
  rcases h : m s with ⟨a | e | _ | _, t⟩ <;> rw [h] at hreturned hdepth
  · exact ⟨(hf a t).1, (hf a t).2.trans hdepth⟩
  · exact ⟨trivial, hdepth⟩
  · exact hreturned.elim
  · exact hreturned.elim

lemma get_bind {f : CompactCursor → Dec α} (hf : ∀ s, Orderly (f s)) : Orderly (get >>= f) :=
  fun s => hf s s

lemma call {o : Outcome Error α} (h : o.Returned) : Orderly (call o) := fun _ => ⟨h, rfl⟩

lemma okOr (o : Option α) (e : Error) : Orderly (okOr o e) := by
  cases o with
  | none => exact throw e
  | some a => exact pure a

lemma ite {c : Prop} [Decidable c] {n : Dec α} (hm : Orderly m) (hn : Orderly n) :
    Orderly (if c then m else n) := by
  split
  · exact hm
  · exact hn

lemma atMost (limit : Option ℕ) (n : ℕ) (e : ℕ → Error) : Orderly (atMost limit n e) := by
  intro s
  rcases atMost_cases limit n e with ⟨-, h⟩ | ⟨l, -, -, h⟩ <;> rw [h]
  · exact pure () s
  · exact throw _ s

lemma enforceLimit (stop : ℕ) : Orderly (enforceLimit stop) := get_bind fun _ => atMost _ _ _

lemma setPosition (position : ℕ) : Orderly (setPosition position) := fun _ => ⟨trivial, rfl⟩

lemma take (len : ℕ) : Orderly (take len) :=
  get_bind fun _ => (okOr _ _).bind fun stop => (enforceLimit stop).bind fun _ =>
    (okOr _ _).bind fun _ => (setPosition stop).bind fun _ => pure _

lemma tryReserve (size count : ℕ) : Orderly (tryReserve size count) := (pure ()).ite (throw _)

lemma payloadOf (cursor : CompactCursor) (marker : UInt8) : Orderly (payloadOf cursor marker) :=
  (okOr _ _).bind fun _ => (enforceLimit _).bind fun _ => (okOr _ _).bind fun _ => pure _

lemma readVarint : Orderly readVarint := by
  refine get_bind fun cursor => (okOr _ _).bind fun marker => ite ?_ ?_
  · exact ((enforceLimit _).bind fun _ => setPosition _).bind fun _ => pure _
  · exact (payloadOf _ _).bind fun _ => (setPosition _).bind fun _ => call (returned_decodeU64 _ _)

lemma decodeTimes (h : Orderly m) (n : ℕ) : Orderly (decodeTimes m n) := by
  induction n with
  | zero => exact pure []
  | succ n ih => exact h.bind fun _ => ih.bind fun _ => pure _

lemma readLength : Orderly readLength := readVarint.bind fun _ => (pure _).ite (throw _)

/-- The run of plain bytes that a round takes is there. -/
lemma varintsLoop [Platform] {rounds remaining : ℕ} (hrounds : remaining ≤ rounds) (out : List ℕ) :
    Orderly (CompactCursor.varintsLoop rounds remaining out) := by
  induction rounds generalizing remaining out with
  | zero =>
      obtain rfl : remaining = 0 := Nat.le_zero.mp hrounds
      exact pure _
  | succ rounds ih =>
      rcases remaining with _ | remaining
      · exact pure _
      · intro s
        rw [CompactCursor.varintsLoop, get_bind_run]
        rcases hmarker : s.input.elems[s.position]? with _ | marker
        · exact throw _ s
        · rw [okOr_some, pure_bind_run]
          by_cases hle : marker.toNat ≤ 250
          · obtain ⟨run, extra, -, -, -, hmin, hslice⟩ :=
              @plain_window s _ marker remaining hmarker hle
            rw [if_pos hle, hmin, hslice]
            exact ((enforceLimit _).bind fun _ => (call (Outcome.returned_ok _)).bind fun _ =>
              (setPosition _).bind fun _ => ih (by omega) _) s
          · rw [if_neg hle]
            exact ((payloadOf s marker).bind fun _ => (call (returned_decodeU64 _ _)).bind fun _ =>
              (setPosition _).bind fun _ => ih (Nat.le_of_succ_le_succ hrounds) _) s

lemma readVarintsBulk [Platform] (len : ℕ) : Orderly (readVarintsBulk len) :=
  (tryReserve 8 len).bind fun _ => varintsLoop (Nat.le_refl len) []

end Orderly

/-! ## Vectors -/

/-- The vector is empty, so that only nothing can be copied. -/
lemma copyFromSlice_nil {α : Type} (as : List α) (cursor : CompactCursor) :
    copyFromSlice [] as cursor = (if as = [] then .ok [] else .panic, cursor) := by
  cases as with
  | nil => rfl
  | cons a as => rfl

namespace Scalar

/-- The types with a fast path of their own. -/
def Bulk : Scalar → Prop
  | .u8 | .i8 | .float _ | .unsigned .w64 => True
  | _ => False

variable [Platform]

lemma orderly_gather {s : Scalar} (h : s.Bulk) (len : ℕ) : Orderly (s.gather len) := by
  cases s with
  | u8 => exact (Orderly.take len).bind fun _ => (Orderly.tryReserve 1 len).bind fun _ => .pure _
  | i8 => exact (Orderly.take len).bind fun _ => (Orderly.tryReserve 1 len).bind fun _ => .pure _
  | float w =>
      exact (Orderly.okOr _ _).bind fun _ => (Orderly.take _).bind fun _ =>
        (Orderly.tryReserve w.bytes len).bind fun _ => .pure _
  | unsigned w =>
      cases w with
      | w64 => exact (Orderly.readVarintsBulk len).bind fun _ => .pure _
      | _ => exact h.elim
  | _ => exact h.elim

variable {s : Scalar} {cursor t : CompactCursor} {len : ℕ} {values : List s.Value}

lemma decodeVec_eq_ok :
    s.decodeVec len cursor = (.ok values, t) ↔ s.gather len cursor = (.ok values, t) ∧
      (s.Copied (cursor.address + cursor.position) → values = []) := by
  rw [decodeVec_run, bind_eq_ok]
  by_cases hcopied : s.Copied (cursor.address + cursor.position)
  · simp only [if_pos hcopied, copyFromSlice_nil]
    constructor
    · rintro ⟨gathered, u, hgather, hcopy⟩
      split_ifs at hcopy with hnil
      · cases hcopy
        subst hnil
        exact ⟨hgather, fun _ => rfl⟩
      · cases hcopy
    · rintro ⟨hgather, hnil⟩
      obtain rfl := hnil hcopied
      exact ⟨[], t, hgather, rfl⟩
  · simp only [if_neg hcopied, pure_run]
    constructor
    · rintro ⟨gathered, u, hgather, hpure⟩
      cases hpure
      exact ⟨hgather, fun h => absurd h hcopied⟩
    · rintro ⟨hgather, -⟩
      exact ⟨values, t, hgather, rfl⟩

lemma decodeVec_returned (h : s.Bulk) :
    (s.decodeVec len cursor).1.Returned ↔ ∀ values t, s.gather len cursor = (.ok values, t) →
      s.Copied (cursor.address + cursor.position) → values = [] := by
  rw [decodeVec_run, bind_returned_iff]
  constructor
  · rintro ⟨-, hreturned⟩ values t hgather hcopied
    have hcopy := hreturned values t hgather
    rw [if_pos hcopied, copyFromSlice_nil] at hcopy
    by_contra hnil
    rw [if_neg hnil] at hcopy
    exact hcopy
  · intro hempty
    refine ⟨(orderly_gather h len cursor).1, fun values t hgather => ?_⟩
    split
    · next hcopied =>
        rw [copyFromSlice_nil, if_pos (hempty values t hgather hcopied)]
        trivial
    · trivial

end Scalar

/-- The vector type of a primitive type. -/
abbrev vecOf (s : Scalar) : CompactType := .vec (.scalar s)

/-- The input at the cursor spells a vector, within the limits. -/
structure HoldsVec [Platform] (s : Scalar) (values : List s.Value) (cursor : CompactCursor) :
    Prop where
  allocated : (vecOf s).Allocated values
  here : Tape.Here cursor ((vecOf s).wire values)
  mayEnter : cursor.MayEnter values.length

/-- The address of the elements of a vector whose length is at the cursor. -/
def payloadAddress (cursor : CompactCursor) (len : ℕ) : ℕ :=
  cursor.address + (cursor.position + (encodeVarintLe len).length)

section Vectors

variable [Platform] {s : Scalar} {cursor t : CompactCursor} {values : List s.Value}

/-- A vector whose elements are read by `elements`, where these have the spellings of elements and
satisfy `p`. -/
lemma decodeContainer_elements {elements : ℕ → Dec (List s.Value)}
    {p : CompactCursor → List s.Value → Prop}
    (h : ∀ (len : ℕ) (u v : CompactCursor) (values : List s.Value), Tape.Here u ([] : List UInt8) →
      (elements len u = (.ok values, v) ↔
        (∃ bs, s.Elements len values bs ∧ Tape.Here u bs ∧ v = Tape.advance u bs.length) ∧
          p u values))
    (hcursor : Tape.Here cursor ([] : List UInt8)) :
    decodeContainer elements cursor = (.ok values, t) ↔
      HoldsVec s values cursor ∧
        p (Tape.advance cursor (encodeVarintLe values.length).length).entered values ∧
        t = Tape.advance cursor ((vecOf s).wire values).length := by
  have hexited : ∀ a b, (Tape.advance (Tape.advance cursor a).entered b).exited
      = Tape.advance cursor (a + b) := by
    intro a b
    rw [exited_advance, Tape.advance_advance]
  have hwire : ((vecOf s).wire values).length
      = (encodeVarintLe values.length).length + (values.flatMap s.wire).length :=
    List.length_append
  rw [decodeContainer_eq_ok, hwire, ← hexited]
  constructor
  · rintro ⟨len, u, v, hread, henter, helements, hdepth, rfl⟩
    obtain ⟨bs, ⟨hlen, rfl⟩, hhere, rfl⟩ := (spells_readLength cursor trivial hcursor _ _).mp hread
    obtain ⟨⟨bs', hel, hhere', rfl⟩, hp⟩ := (h _ _ _ _ (here_entered.mpr (here_behind hhere))).mp
      helements
    obtain ⟨hsize, rfl, hall, rfl⟩ := hel
    refine ⟨⟨⟨⟨hlen, ?_⟩, hall⟩, ?_, ⟨henter.collection, henter.depth_lt⟩⟩, hp, rfl⟩
    · rw [Platform.size_scalar]
      exact hsize
    · exact (Tape.here_append _ _ _).mpr ⟨hhere, hhere'⟩
  · rintro ⟨⟨⟨⟨hlen, hsize⟩, hall⟩, hhere, henter⟩, hp, rfl⟩
    obtain ⟨hhead, htail⟩ := (Tape.here_append cursor (encodeVarintLe values.length) _).mp hhere
    rw [Platform.size_scalar] at hsize
    refine ⟨values.length, _, _, (spells_readLength cursor trivial hcursor _ _).mpr
      ⟨_, ⟨hlen, rfl⟩, hhead, rfl⟩, ⟨henter.collection, henter.depth_lt⟩, ?_,
      Nat.succ_ne_zero cursor.depth, rfl⟩
    exact (h _ _ _ _ (here_entered.mpr (here_behind hhead))).mpr
      ⟨⟨_, ⟨hsize, rfl, hall, rfl⟩, htail, rfl⟩, hp⟩

/-- Element by element, a vector is read where the input holds it. -/
lemma decodeEach_eq_ok (hcursor : Tape.Here cursor ([] : List UInt8)) :
    decodeContainer s.decodeEach cursor = (.ok values, t) ↔
      HoldsVec s values cursor ∧ t = Tape.advance cursor ((vecOf s).wire values).length := by
  have h := @decodeContainer_elements _ s cursor t values s.decodeEach (fun _ _ => True)
    (fun len u v values hu => by rw [s.spells_decodeEach len u trivial hu, and_true]) hcursor
  rwa [true_and] at h

/-- The decoder of a vector reads it there, unless it copies elements. -/
lemma decodeVec_eq_ok (hcursor : Tape.Here cursor ([] : List UInt8)) :
    (vecOf s).decode cursor = (.ok values, t) ↔
      HoldsVec s values cursor ∧ (s.Copied (payloadAddress cursor values.length) → values = []) ∧
        t = Tape.advance cursor ((vecOf s).wire values).length :=
  decodeContainer_elements (p := fun u values => s.Copied (u.address + u.position) → values = [])
    (fun len u v values hu => Scalar.decodeVec_eq_ok.trans
      (and_congr_left' (s.spells_gather len u trivial hu values v)))
    hcursor

omit [Platform] in
lemma decodeContainer_returned {α : Type} {elements : ℕ → Dec α}
    (h : ∀ len u, (elements len u).2.depth = u.depth) :
    (decodeContainer elements cursor).1.Returned ↔ ∀ len u, readLength cursor = (.ok len, u) →
      u.MayEnter len → (elements len u.entered).1.Returned := by
  rw [decodeContainer, bind_returned_iff, and_iff_right (Orderly.readLength cursor).1]
  refine forall₃_congr fun len u _ => ?_
  rw [bind_returned_iff]
  constructor
  · rintro ⟨-, hleaving⟩ henter
    exact (leaving_returned_iff.mp (hleaving () _ (enterContainer_of henter))).1
  · intro helements
    refine ⟨?_, fun _ v hv => ?_⟩
    · rcases enterContainer_cases u len with ⟨l, -, -, henter⟩ | ⟨-, henter⟩ | ⟨-, henter⟩ <;>
        rw [henter] <;> trivial
    · obtain ⟨henter, rfl⟩ := enterContainer_eq_ok.mp hv
      refine leaving_returned_iff.mpr ⟨helements henter, ?_⟩
      have hdepth : (elements len u.entered).2.depth ≠ 0 := by
        rw [h]
        exact Nat.succ_ne_zero u.depth
      rw [exitContainer_of hdepth]
      trivial

lemma Scalar.depth_decodeVec (hs : s.Bulk) (len : ℕ) (u : CompactCursor) :
    (s.decodeVec len u).2.depth = u.depth := by
  obtain ⟨-, hdepth⟩ := Scalar.orderly_gather hs len u
  rw [Scalar.decodeVec_run]
  refine bind_snd (Q := fun v : CompactCursor => v.depth = u.depth) hdepth fun values v hgather => ?_
  rw [hgather] at hdepth
  split
  · rw [copyFromSlice_nil]
    exact hdepth
  · exact hdepth

/-- The decoder of a vector comes back unless it copies elements. -/
lemma decodeVec_returned (hs : s.Bulk) (hcursor : Tape.Here cursor ([] : List UInt8)) :
    ((vecOf s).decode cursor).1.Returned ↔ ∀ values, HoldsVec s values cursor →
      s.Copied (payloadAddress cursor values.length) → values = [] := by
  refine (decodeContainer_returned (Scalar.depth_decodeVec hs)).trans ?_
  constructor
  · rintro h values ⟨⟨⟨hlen, hsize⟩, hall⟩, hhere, henter⟩ hcopied
    obtain ⟨hhead, htail⟩ := (Tape.here_append cursor (encodeVarintLe values.length) _).mp hhere
    rw [Platform.size_scalar] at hsize
    have hread := (spells_readLength cursor trivial hcursor _ _).mpr ⟨_, ⟨hlen, rfl⟩, hhead, rfl⟩
    have hgather := (s.spells_gather values.length _ trivial (here_entered.mpr
      (here_behind hhead)) values _).mpr ⟨_, ⟨hsize, rfl, hall, rfl⟩, htail, rfl⟩
    have hreturned := h _ _ hread ⟨henter.collection, henter.depth_lt⟩
    exact (Scalar.decodeVec_returned hs).mp hreturned values _ hgather hcopied
  · intro h len u hread henter
    obtain ⟨bs, ⟨hlen, rfl⟩, hhere, rfl⟩ := (spells_readLength cursor trivial hcursor _ _).mp hread
    refine (Scalar.decodeVec_returned hs).mpr fun values t hgather hcopied => ?_
    obtain ⟨bs, ⟨hsize, rfl, hall, rfl⟩, hhere', -⟩ := (s.spells_gather len _ trivial
      (here_entered.mpr (here_behind hhere)) values t).mp hgather
    refine h values ⟨⟨⟨hlen, ?_⟩, hall⟩, ?_, ⟨henter.collection, henter.depth_lt⟩⟩ hcopied
    · rw [Platform.size_scalar]
      exact hsize
    · exact (Tape.here_append _ _ _).mpr ⟨hhere, hhere'⟩

omit [Platform] in
/-- A varint lies within the limit. -/
lemma here_of_varint {value : ℕ} (h : readVarint cursor = (.ok value, t)) :
    Tape.Here cursor ([] : List UInt8) := by
  rw [readVarint, readMarked, get_bind_run, bind_eq_ok] at h
  obtain ⟨marker, _, hmarker, hread⟩ := h
  obtain ⟨hmarker, rfl⟩ := okOr_eq_ok.mp hmarker
  obtain ⟨hlt, -⟩ := List.getElem?_eq_some_iff.mp hmarker
  refine ⟨slice_eq_some.mpr ⟨Nat.le_refl _, hlt.le, by simp⟩, fun l hl => ?_⟩
  split at hread
  · obtain ⟨_, _, hadvance, -⟩ := bind_eq_ok.mp hread
    obtain ⟨_, _, henforce, -⟩ := bind_eq_ok.mp hadvance
    have := (enforceLimit_eq_ok.mp henforce).1 l hl
    rw [List.length_nil]
    omega
  · obtain ⟨_, _, hpayload, -⟩ := bind_eq_ok.mp hread
    obtain ⟨_, _, hwidth, hpayload⟩ := bind_eq_ok.mp hpayload
    obtain ⟨-, rfl⟩ := okOr_eq_ok.mp hwidth
    obtain ⟨_, _, henforce, -⟩ := bind_eq_ok.mp hpayload
    have := (enforceLimit_eq_ok.mp henforce).1 l hl
    rw [List.length_nil]
    omega

omit [Platform] in
lemma here_of_readLength {len : ℕ} (h : readLength cursor = (.ok len, t)) :
    Tape.Here cursor ([] : List UInt8) := by
  obtain ⟨value, u, hread, -⟩ := bind_eq_ok.mp h
  exact here_of_varint hread

/-- The decoder of a vector comes back, and with what the elements decode to one by one. -/
def DecodesEach (s : Scalar) (cursor : CompactCursor) : Prop :=
  ((vecOf s).decode cursor).1.Returned ∧ ∀ values t,
    (vecOf s).decode cursor = (.ok values, t) ↔
      decodeContainer s.decodeEach cursor = (.ok values, t)

lemma decodesEach_iff (hs : s.Bulk) :
    DecodesEach s cursor ↔ ∀ values, HoldsVec s values cursor →
      s.Copied (payloadAddress cursor values.length) → values = [] := by
  by_cases hcursor : Tape.Here cursor ([] : List UInt8)
  · rw [DecodesEach, decodeVec_returned hs hcursor, and_iff_left_iff_imp]
    intro hempty values t
    exact (decodeVec_eq_ok hcursor).trans ((and_congr_right fun hholds =>
      and_iff_right (hempty values hholds)).trans (decodeEach_eq_ok hcursor).symm)
  · have hno : ∀ len u, readLength cursor ≠ (.ok len, u) :=
      fun len u hread => hcursor (here_of_readLength hread)
    refine iff_of_true ⟨?_, fun values t => iff_of_false ?_ ?_⟩ ?_
    · exact (decodeContainer_returned (Scalar.depth_decodeVec hs)).mpr
        fun len u hread => absurd hread (hno len u)
    · intro h
      obtain ⟨len, u, -, hread, -⟩ := decodeContainer_eq_ok.mp h
      exact hno len u hread
    · intro h
      obtain ⟨len, u, -, hread, -⟩ := decodeContainer_eq_ok.mp h
      exact hno len u hread
    · intro values hholds
      exact absurd hholds.here.nil hcursor

lemma deserialize_eq_ok {config : Config} {t : CompactType} {address : ℕ} {input : Slice 1 UInt8}
    {value : t.Value} :
    deserialize config t address input = .ok value ↔
      ∃ c, t.decode (.new address input config) = (.ok value, c) ∧
        (config.trailing = .reject → c.position = input.elems.length) := by
  rw [deserialize]
  rcases t.decode (.new address input config) with ⟨v | e | _ | _, c⟩
  · by_cases htrailing : config.trailing = .reject ∧ c.position ≠ input.elems.length
    · simp [htrailing]
    · simp only [Outcome.ok_bind, if_neg htrailing, Outcome.ok.injEq, Prod.mk.injEq]
      constructor
      · rintro rfl
        exact ⟨c, ⟨rfl, rfl⟩, fun h => by_contra fun hne => htrailing ⟨h, hne⟩⟩
      · rintro ⟨_, ⟨rfl, rfl⟩, -⟩
        rfl
  all_goals simp

omit [Platform] in
/-- The input of a decoder that starts with a text within the limit. -/
lemma here_new {config : Config} {address : ℕ} {input : Slice 1 UInt8}
    (h : ∀ limit, config.limit = some limit → input.elems.length ≤ limit) :
    Tape.Here (CompactCursor.new address input config) input.elems := by
  refine ⟨slice_eq_some.mpr ⟨Nat.le_add_right _ _, ?_, by simp [CompactCursor.new]⟩, ?_⟩
  · simp [CompactCursor.new]
  · intro l hl
    obtain ⟨hl, -⟩ := Option.filter_eq_some_iff.mp hl
    have := h l hl
    simpa [CompactCursor.new] using this

end Vectors

section RoundTrip

variable [Platform]

/-- The fast path of a vector agrees with its elements one by one, and a vector comes back from what
it is serialized to, exactly where nothing is copied into an empty vector; what comes back is also
within the collection limit. -/
theorem vec_decode_iff (s : Scalar) (hs : s.Bulk) :
    (∀ cursor, DecodesEach s cursor ↔ ∀ values, HoldsVec s values cursor →
      s.Copied (payloadAddress cursor values.length) → values = []) ∧
    ∀ (config : Config) (values : List s.Value) (address : ℕ) (input : Slice 1 UInt8),
      (vecOf s).Allocated values → serialize config (vecOf s) values = .ok input.elems →
        (deserialize config (vecOf s) address input = .ok values ↔
          (∀ l, config.collectionLimit = some l → values.length ≤ l) ∧
            (s.Copied (address + (encodeVarintLe values.length).length) → values = [])) := by
  refine ⟨fun cursor => decodesEach_iff hs, fun config values address input hvalues hok => ?_⟩
  obtain ⟨hfits, hinput⟩ := (serialize_eq_ok (t := vecOf s) trivial hvalues).mp hok
  have hhere : Tape.Here (CompactCursor.new address input config) ((vecOf s).wire values) :=
    hinput ▸ here_new fun limit hlimit => hinput.symm ▸ hfits.limit limit hlimit
  have hdepth : 0 < config.depthLimit := (Nat.succ_pos _).trans_le hfits.nesting_le
  refine deserialize_eq_ok.trans ⟨?_, ?_⟩
  · rintro ⟨c, hdecode, -⟩
    obtain ⟨hholds, hcopied, -⟩ := (decodeVec_eq_ok hhere.nil).mp hdecode
    refine ⟨hholds.mayEnter.collection, fun h => hcopied ?_⟩
    rwa [payloadAddress, CompactCursor.new, Nat.zero_add]
  · rintro ⟨hcollection, hcopied⟩
    refine ⟨_, (decodeVec_eq_ok hhere.nil).mpr ⟨⟨hvalues, hhere, hcollection, hdepth⟩, fun h => ?_,
      rfl⟩, fun _ => ?_⟩
    · rw [payloadAddress, CompactCursor.new, Nat.zero_add] at h
      exact hcopied h
    · rw [hinput]
      exact Nat.zero_add _

end RoundTrip

section Samples

attribute [local instance] Platform.sample

lemma length_threeInput : 1 * ([3, 1, 2, 3] : List UInt8).length ≤ isizeMax := by decide

lemma length_oneInput : 1 * ([1, 7] : List UInt8).length ≤ isizeMax := by decide

/-- Three bytes. -/
def threeInput : Slice 1 UInt8 := ⟨[3, 1, 2, 3], length_threeInput⟩

/-- A single byte. -/
def oneInput : Slice 1 UInt8 := ⟨[1, 7], length_oneInput⟩

theorem vec_decode_bytes :
    DecodesEach .u8 (.new 0 threeInput .standard) ∧
      deserialize .standard (vecOf .u8) 0 threeInput = .ok threeBytes := by
  obtain ⟨hdecode, hround⟩ := vec_decode_iff .u8 trivial
  have hallocated : (vecOf .u8).Allocated threeBytes :=
    ⟨⟨by decide, by decide⟩, fun _ _ => trivial⟩
  have hserialize : serialize .standard (vecOf .u8) threeBytes = .ok threeInput.elems := by
    decide +kernel
  refine ⟨(hdecode _).mpr fun _ _ hcopied => hcopied.elim, ?_⟩
  refine (hround .standard threeBytes 0 threeInput hallocated hserialize).mpr ⟨?_, False.elim⟩
  rintro _ ⟨⟩
  decide

/-- A single `i8` is serialized, and deserializing it aborts. -/
theorem vec_decode_signed :
    serialize .standard (vecOf .i8) ([7] : List Int8) = .ok oneInput.elems ∧
      deserialize .standard (vecOf .i8) 0 oneInput = .panic ∧
      ¬ DecodesEach .i8 (.new 0 oneInput .standard) := by
  have hpanic : deserialize .standard (vecOf .i8) 0 oneInput = .panic := rfl
  refine ⟨by decide +kernel, hpanic, fun h => ?_⟩
  have hreturned := h.1
  have hdecode : ((vecOf .i8).decode (.new 0 oneInput .standard)).1 = .panic := rfl
  rw [hdecode] at hreturned
  exact hreturned

end Samples

end RustBinary.Compact
