import RustBinary.Native.Value

/-!
# Skipping a value

`skip_value` does not use the container protocol: it takes tokens and terminators, and counts how
many containers are open.  On a value that the limits admit it still ends where reading the value
ends, in the same state.
-/

namespace RustBinary.Native

open Lib Lib.Act Decoder

section Skip

variable [Target] {c : Config} {s t : Decoder}

/-! ## A round of the loop -/

omit [Target] in
lemma peekByte_eq_ok {byte : UInt8} :
    orFail peekByte s = (.ok byte, t) ↔ next s = some byte ∧ t = s := by
  rw [orFail_eq_ok, peekByte, get_bind_run, okOr_eq_ok, next]

omit [Target] in
lemma peekByte_of_next {byte : UInt8} (h : next s = some byte) :
    orFail peekByte s = (.ok byte, s) := peekByte_eq_ok.mpr ⟨h, rfl⟩

omit [Target] in
lemma bumpCursor_of_next {byte : UInt8} (h : next s = some byte) :
    bumpCursor s = (.ok (), after s 1) := by
  have hlt : s.cursor < s.input.bytes.length := (List.getElem?_eq_some_iff.mp h).1
  have := s.input.length_le
  rw [bumpCursor, get_bind_run, if_pos (by omega)]
  rfl

/-- A round at the terminator of a container that is not the outermost one. -/
lemma skipRound_end {k : ℕ} (hk : 0 < k) (h : next s = some tagEnd) :
    skipRound (k + 1) s = (.ok (.inl k), after s 1) := by
  rw [skipRound.eq_def, bind_of_ok (peekByte_of_next h), if_pos rfl, bind_of_ok (bumpCursor_of_next h)]
  obtain ⟨k, rfl⟩ := Nat.exists_eq_succ_of_ne_zero hk.ne'
  rfl

/-- A round at the terminator of the outermost container. -/
lemma skipRound_last (h : next s = some tagEnd) : skipRound 1 s = (.ok (.inr ()), after s 1) := by
  rw [skipRound.eq_def, bind_of_ok (peekByte_of_next h), if_pos rfl, bind_of_ok (bumpCursor_of_next h)]
  rfl

lemma skipRound_token {k : ℕ} {byte : UInt8} {token : Token} (h : next s = some byte)
    (hne : byte ≠ tagEnd) (hread : readToken s = (.ok token, t)) (hkind : tokenKind token = none) :
    skipRound k s = (.ok (.inl k), t) := by
  rw [skipRound.eq_def, bind_of_ok (peekByte_of_next h), if_neg hne, bind_of_ok hread]
  cases token with
  | beginArray | beginObject => simp [tokenKind] at hkind
  | _ => rfl

lemma skipRound_open {k : ℕ} {byte : UInt8} {kind : Kind} (h : next s = some byte)
    (hne : byte ≠ tagEnd) (hread : readToken s = (.ok (kindToken kind), t))
    (hk : k + 1 ≤ u64Max) : skipRound k s = (.ok (.inl (k + 1)), t) := by
  rw [skipRound.eq_def, bind_of_ok (peekByte_of_next h), if_neg hne, bind_of_ok hread]
  cases kind <;> exact congrFun (if_pos hk) t

/-! ## Going over a value -/

omit [Target] in
lemma after_after (s : Decoder) (m n : ℕ) : after (after s m) n = after s (m + n) :=
  Tape.advance_advance s m n

/-- Inside `k` open containers the loop takes at most one round for each byte of `bs`. -/
def Skips (s : Decoder) (k : ℕ) (bs : List UInt8) : Prop :=
  ∃ r ≤ bs.length, ∀ n, iterate skipRound (r + n) k s = iterate skipRound n k (after s bs.length)

lemma Skips.nil {k : ℕ} : Skips s k [] := by
  refine ⟨0, Nat.le_refl _, fun n => ?_⟩
  rw [Nat.zero_add]
  rfl

lemma Skips.append {k : ℕ} {xs ys : List UInt8} (hx : Skips s k xs)
    (hy : Skips (after s xs.length) k ys) : Skips s k (xs ++ ys) := by
  obtain ⟨r, hr, hx⟩ := hx
  obtain ⟨r', hr', hy⟩ := hy
  refine ⟨r + r', ?_, fun n => ?_⟩
  · rw [List.length_append]
    omega
  · rw [Nat.add_assoc, hx, hy, after_after, List.length_append]

/-- One round that takes `bs`. -/
lemma Skips.round {k : ℕ} {bs : List UInt8} (hbs : bs ≠ [])
    (h : skipRound k s = (.ok (.inl k), after s bs.length)) : Skips s k bs := by
  refine ⟨1, List.length_pos_iff.mpr hbs, fun n => ?_⟩
  rw [Nat.add_comm, iterate_succ_run, h]

/-- A container: its head, its entries one level deeper, and its terminator. -/
lemma Skips.container {k : ℕ} {tag : UInt8} {bs : List UInt8} (hk : 0 < k)
    (hopen : skipRound k s = (.ok (.inl (k + 1)), after s 1))
    (hentries : Skips (after s 1) (k + 1) bs)
    (hend : next (after (after s 1) bs.length) = some tagEnd) :
    Skips s k (tag :: (bs ++ [tagEnd])) := by
  obtain ⟨r, hr, hentries⟩ := hentries
  refine ⟨1 + (r + 1), ?_, fun n => ?_⟩
  · rw [List.length_cons, List.length_append, List.length_singleton]
    omega
  · rw [show 1 + (r + 1) + n = r + (n + 1) + 1 by omega, iterate_succ_run, hopen]
    dsimp only
    rw [hentries, iterate_succ_run, skipRound_end hk hend, after_after, after_after]
    dsimp only
    rw [List.length_cons, List.length_append, List.length_singleton,
      show 1 + (bs.length + 1) = bs.length + 1 + 1 by omega]

/-- A token of the wire that opens no container. -/
lemma skips_scalar {scalar : WireScalar} {token : Token} {k : ℕ} (hs : Ready c s)
    (hfits : scalar.Fits c) (htoken : scalar.token c = some token)
    (hhere : Tape.Here s (scalar.spell c)) : Skips s k (scalar.spell c) := by
  obtain ⟨byte, bs, hcons, hne⟩ := spellValue_cons (c := c) (.scalar scalar)
  have hcons : scalar.spell c = byte :: bs := hcons
  have hkind : tokenKind token = none := by
    cases hkind : tokenKind token with
    | none => rfl
    | some kind =>
        rw [tokenKind_eq_some.mp hkind] at htoken
        exact absurd htoken (token_ne_kindToken scalar kind)
  have hnext : next s = some byte := by
    rw [hcons] at hhere
    exact next_of_here hhere
  have hread : readToken s = (.ok token, after s (scalar.spell c).length) :=
    (spells_readToken s hs.under hs.here _ _).mpr
      ⟨_, .inl ⟨scalar, hfits, htoken, rfl⟩, hhere, rfl⟩
  exact Skips.round (by simp [hcons]) (skipRound_token hnext hne hread hkind)

/-- The key of an entry is a string. -/
lemma skips_key {kind : Kind} {key : KeyOf (List UInt8) kind} {text : KeyOf String kind} {k : ℕ}
    (hs : Ready c s) (hfits : key.All fun bytes => bytes.length < 2 ^ 64)
    (htext : key.mapOption fromUtf8 = some text) (hhere : Tape.Here s (spellKey c key)) :
    Skips s k (spellKey c key) := by
  cases kind with
  | array => exact Skips.nil
  | object =>
      have htoken : (WireScalar.str key).token c = some (.str text) := by
        rw [WireScalar.token.eq_def]
        exact congrArg (Option.map Token.str) htext
      have hlen : (WireScalar.str key).Fits c := hfits
      exact skips_scalar hs hlen htoken hhere

/-- The head of a container. -/
lemma readToken_open {kind : Kind} (hs : Ready c s) (hhere : Tape.Here s [kindTag kind]) :
    readToken s = (.ok (kindToken kind), after s 1) :=
  (spells_readToken s hs.under hs.here _ _).mpr ⟨_, .inr ⟨kind, rfl, rfl⟩, hhere, rfl⟩

omit [Target] in
/-- There is a byte for each of the open containers. -/
lemma lt_max_of_next {byte : UInt8} (h : next s = some byte) : s.cursor + 1 ≤ u64Max := by
  have hlt : s.cursor < s.input.bytes.length := (List.getElem?_eq_some_iff.mp h).1
  have := s.input.length_le
  omega

mutual

/-- The loop goes over a value of the wire, whatever it is inside of. -/
lemma skips_value : ∀ (wire : WireValue) {s : Decoder} {value : Tree Token String} {k : ℕ},
    Ready c s → Fits c wire → decodeValue c wire = some value → 0 < k → k ≤ s.cursor →
    Tape.Here s (spellValue c wire) → Skips s k (spellValue c wire)
  | .scalar scalar, s, value, k, hs, hfits, hdecode, _, _, hhere => by
      rw [decodeValue, Tree.mapOption] at hdecode
      obtain ⟨token, htoken, -⟩ := Option.map_eq_some_iff.mp hdecode
      exact skips_scalar hs hfits htoken hhere
  | .node kind entries, s, value, k, hs, hfits, hdecode, hpos, hk, hhere => by
      rw [decodeValue, Tree.mapOption] at hdecode
      obtain ⟨out, hout, -⟩ := Option.map_eq_some_iff.mp hdecode
      obtain ⟨htag, hrest⟩ := (Tape.here_append s [kindTag kind] _).mp hhere
      obtain ⟨hentries, hend⟩ := (Tape.here_append (after s 1) (spellEntries c entries) _).mp hrest
      have hnext := next_of_here hhere
      have hne : kindTag kind ≠ tagEnd := by cases kind <;> decide
      have hmax := lt_max_of_next hnext
      have hcursor : (after s 1).cursor = s.cursor + 1 := rfl
      exact Skips.container hpos
        (skipRound_open hnext hne (readToken_open hs htag) (by omega))
        (skips_entries entries (hs.after htag) hfits hout (by omega) (by omega) hentries)
        (next_of_here hend)

lemma skips_entries {kind : Kind} : ∀ (wire : WireEntries kind) {s : Decoder}
    {entries : Forest Token String kind} {k : ℕ}, Ready c s →
    wire.All (WireScalar.Fits c) (fun key => key.length < 2 ^ 64) →
    wire.mapOption (WireScalar.token c) fromUtf8 = some entries → 0 < k → k ≤ s.cursor →
    Tape.Here s (spellEntries c wire) → Skips s k (spellEntries c wire)
  | .nil, s, entries, k, _, _, _, _, _, _ => Skips.nil
  | .cons key value rest, s, entries, k, hs, hfits, hdecode, hpos, hk, hhere => by
      obtain ⟨key', value', rest', hkey, hvalue, hrest, -⟩ :=
        Forest.mapOption_cons_eq_some.mp hdecode
      obtain ⟨hkeyFits, hvalueFits, hrestFits⟩ := hfits
      rw [spellEntries] at hhere ⊢
      obtain ⟨hks, hhere⟩ := (Tape.here_append s _ _).mp hhere
      obtain ⟨hvs, hhere⟩ := (Tape.here_append _ _ _).mp hhere
      have hs₁ := hs.after hks
      have hs₂ := hs₁.after hvs
      have hcursor₁ : (after s (spellKey c key).length).cursor = s.cursor + (spellKey c key).length :=
        rfl
      have hcursor₂ : (after (after s (spellKey c key).length) (spellValue c value).length).cursor
          = s.cursor + (spellKey c key).length + (spellValue c value).length := rfl
      exact (skips_key hs hkeyFits hkey hks).append
        ((skips_value value hs₁ hvalueFits hvalue hpos (by omega) hvs).append
          (skips_entries rest hs₂ hrestFits hrest hpos (by omega) hhere))

end

/-! ## Skipping and reading -/

/-- `skip_value` on a value of the wire. -/
lemma skipValueInner_of_here {wire : WireValue} {value : Tree Token String} (hs : Ready c s)
    (hfits : Fits c wire) (hdecode : decodeValue c wire = some value)
    (hhere : Tape.Here s (spellValue c wire)) :
    skipValueInner s = (.ok (), after s (spellValue c wire).length) := by
  have htake : takeToken s = readToken s := by
    rw [takeToken, get_bind_run, hs.noPending]
  rw [skipValueInner]
  cases wire with
  | scalar scalar =>
      rw [decodeValue, Tree.mapOption] at hdecode
      obtain ⟨token, htoken, -⟩ := Option.map_eq_some_iff.mp hdecode
      have hread : takeToken s = (.ok token, after s (scalar.spell c).length) := by
        rw [htake]
        exact (spells_readToken s hs.under hs.here _ _).mpr
          ⟨_, .inl ⟨scalar, hfits, htoken, rfl⟩, hhere, rfl⟩
      rw [bind_of_ok hread, spellValue]
      cases token with
      | beginArray => exact absurd htoken (token_ne_kindToken scalar .array)
      | beginObject => exact absurd htoken (token_ne_kindToken scalar .object)
      | _ => rfl
  | node kind entries =>
      rw [decodeValue, Tree.mapOption] at hdecode
      obtain ⟨out, hout, -⟩ := Option.map_eq_some_iff.mp hdecode
      obtain ⟨htag, hrest⟩ := (Tape.here_append s [kindTag kind] _).mp hhere
      obtain ⟨hentries, hend⟩ := (Tape.here_append (after s 1) (spellEntries c entries) _).mp hrest
      have hcursor : (after s 1).cursor = s.cursor + 1 := rfl
      have hskips : Skips (after s 1) 1 (spellEntries c entries) :=
        skips_entries entries (hs.after htag) hfits hout Nat.one_pos (by
          change 1 ≤ s.cursor + 1
          omega) hentries
      obtain ⟨r, hr, hloop⟩ := hskips
      have hread : takeToken s = (.ok (kindToken kind), after s 1) := by
        rw [htake, readToken_open hs htag]
      -- the entries leave a round for the terminator
      have hlen : r + 1 ≤ s.input.bytes.length + 1 := by
        have hlt : (after (after s 1) (spellEntries c entries).length).cursor
            < s.input.bytes.length := (List.getElem?_eq_some_iff.mp (next_of_here hend)).1
        have hpos : (after (after s 1) (spellEntries c entries).length).cursor
            = s.cursor + 1 + (spellEntries c entries).length := rfl
        omega
      obtain ⟨n, hn⟩ := Nat.exists_eq_add_of_le hlen
      have hskip : iterate skipRound (s.input.bytes.length + 1) 1 (after s 1)
          = (.ok (), after s (spellValue c (.node kind entries)).length) := by
        rw [hn, Nat.add_assoc, hloop, Nat.add_comm 1 n, iterate_succ_run,
          skipRound_last (next_of_here hend), after_after, after_after, spellValue]
        dsimp only
        rw [List.length_cons, List.length_append, List.length_singleton,
          show 1 + ((spellEntries c entries).length + 1)
            = (spellEntries c entries).length + 1 + 1 by omega]
      rw [bind_of_ok hread, ← hskip]
      cases kind <;> rfl

/-- The decoder after `peek_token`. -/
def peeked (s : Decoder) : Decoder := (step .peekToken s).2

lemma peeked_of_readToken {token : Token} (hs : s.lookahead = none)
    (hread : readToken s = (.ok token, t)) :
    peekTokenInner s = (.ok token, { t with lookahead := some token }) := by
  rw [peekTokenInner, get_bind_run, hs]
  dsimp only
  rw [bind_of_ok hread, modify_bind_run]
  rfl

/-- The first token of a value. -/
lemma readToken_of_here {wire : WireValue} {value : Tree Token String} (hs : Ready c s)
    (hfits : Fits c wire) (hdecode : decodeValue c wire = some value)
    (hhere : Tape.Here s (spellValue c wire)) :
    ∃ token n, readToken s = (.ok token, after s n) := by
  cases wire with
  | scalar scalar =>
      rw [decodeValue, Tree.mapOption] at hdecode
      obtain ⟨token, htoken, -⟩ := Option.map_eq_some_iff.mp hdecode
      exact ⟨token, _, (spells_readToken s hs.under hs.here _ _).mpr
        ⟨_, .inl ⟨scalar, hfits, htoken, rfl⟩, hhere, rfl⟩⟩
  | node kind entries =>
      exact ⟨kindToken kind, 1, readToken_open hs ((Tape.here_append s [kindTag kind] _).mp hhere).1⟩

/-- A token that has been peeked at is taken as if it had not. -/
lemma takeToken_peeked {token : Token} {n : ℕ} (hs : s.lookahead = none)
    (hread : readToken s = (.ok token, after s n)) :
    takeToken (peeked s) = takeToken s := by
  have hpeek : peeked s = { after s n with lookahead := some token } :=
    congrArg Prod.snd (map_of_ok (f := Answer.token) (peeked_of_readToken hs hread))
  have htake : takeToken s = (.ok token, after s n) := by
    rw [takeToken, get_bind_run, hs]
    exact hread
  have hnone : ({ after s n with lookahead := none } : Decoder) = after s n := by
    rw [← show (after s n).lookahead = none from hs]
  rw [hpeek, htake, takeToken_pending rfl]
  exact congrArg (Prod.mk _) hnone

lemma peekTokenInner_peeked {token : Token} {n : ℕ} (hs : s.lookahead = none)
    (hread : readToken s = (.ok token, after s n)) :
    peekTokenInner (peeked s) = peekTokenInner s := by
  have hpeek : peeked s = { after s n with lookahead := some token } :=
    congrArg Prod.snd (map_of_ok (f := Answer.token) (peeked_of_readToken hs hread))
  rw [peeked_of_readToken hs hread, hpeek, peekTokenInner, get_bind_run]
  rfl

/-- **Skipping is reading.** On a value within the limits, wherever the decoder stands and whether
or not it has peeked at the first token, `skip_value` leaves the decoder that reading the value
leaves: behind the value, with nothing else changed. -/
theorem skipValue_eq_readValue {s : Decoder} (hs : Reachable s) (hpending : s.lookahead = none)
    {wire : WireValue} {value : Tree Token String} (hfits : Fits s.config wire)
    (hdecode : decodeValue s.config wire = some value)
    (hwithin : wire.Within s.config.collectionLimit (s.config.depthLimit - s.depth))
    (hhere : Tape.Here s (spellValue s.config wire)) {n : ℕ} (hn : wire.rounds ≤ n) :
    ∀ u, u = s ∨ u = peeked s →
      step .skipValue u =
          (.ok .unit, { s with cursor := s.cursor + (spellValue s.config wire).length }) ∧
        readValue n u =
          (.ok value, { s with cursor := s.cursor + (spellValue s.config wire).length }) := by
  have hready : Ready s.config s := by
    refine ⟨rfl, hpending, inv_of_reachable hs, ?_⟩
    exact ((Tape.here_append s [] _).mp hhere).1
  have hskip := skipValueInner_of_here hready hfits hdecode hhere
  have hreadValue := (readValue_complete n).1 s wire value hready hn hfits hdecode hwithin hhere
  obtain ⟨token, k, hread⟩ := readToken_of_here hready hfits hdecode hhere
  rintro u (rfl | rfl)
  · exact ⟨map_of_ok hskip, hreadValue⟩
  · constructor
    · have hsame : skipValueInner (peeked s) = skipValueInner s := by
        rw [skipValueInner, bind_run, bind_run, takeToken_peeked hpending hread]
      exact map_of_ok (hsame.trans hskip)
    · cases n with
      | zero => cases wire <;> simp [Tree.rounds] at hn
      | succ n =>
          have hsame : readValue (n + 1) (peeked s) = readValue (n + 1) s := by
            rw [readValue, bind_run, bind_run, peekTokenInner_peeked hpending hread]
          exact hsame.trans hreadValue

end Skip

section Witness

local instance nestedTarget : Target := ⟨true⟩

/-- A decoder inside the array `[[null]]`. -/
def insideNested : Decoder :=
  (run step [.beginArray]
    (new ⟨[tagArray, tagArray, tagNull, tagEnd, tagEnd], by decide⟩ .standard)).2

/-- The element, read or skipped, ends in front of the last terminator. -/
theorem skipValue_eq_readValue_insideNested :
    step .skipValue (peeked insideNested) = (.ok .unit, { insideNested with cursor := 4 }) ∧
      readValue 3 insideNested =
        (.ok (.node .array (.cons () (.scalar .null) .nil)), { insideNested with cursor := 4 }) := by
  have hhere : Tape.Here insideNested
      (spellValue insideNested.config (.node .array (.cons () (.scalar .null) .nil))) :=
    ⟨by decide, by rintro l ⟨⟩; decide⟩
  have hwithin : (Lib.Tree.node .array (.cons () (.scalar .null) .nil) : WireValue).Within
      insideNested.config.collectionLimit (insideNested.config.depthLimit - insideNested.depth) :=
    ⟨by decide, by rintro l ⟨⟩; decide, trivial, trivial⟩
  have hfits : Fits insideNested.config (.node .array (.cons () (.scalar .null) .nil)) :=
    ⟨trivial, trivial, trivial⟩
  have h := skipValue_eq_readValue ⟨_, _, _, rfl⟩ rfl hfits rfl hwithin hhere (n := 3) (by decide)
  exact ⟨(h _ (.inr rfl)).1, (h _ (.inl rfl)).2⟩

end Witness

end RustBinary.Native
