import RustBinary.Native.Reading

/-!
# Reading values

A caller that reads one complete value of whatever shape, token by token: it peeks at the next
token, and it counts one separator for each entry of a container.  What it reads is a value on
the wire that stands for a value, within the limits of the decoder; it ends behind the value, in
the state that it started in.
-/

namespace RustBinary.Native

open Lib Lib.Act Decoder

/-- The container that a token opens. -/
def tokenKind : Token → Option Kind
  | .beginArray => some .array
  | .beginObject => some .object
  | _ => none

namespace Decoder

variable [Target]

def beginContainer : Kind → Dec Unit
  | .array => beginArray
  | .object => beginObject

/-- `array_has_more` or `object_key`. -/
def nextKey : (kind : Kind) → Dec (Option (KeyOf String kind))
  | .array => do
      let more ← arrayHasMore
      pure (if more then some () else none)
  | .object => objectKey

/-- The rest of a container: its entries and its end. -/
def closeContainer {kind : Kind} (readRest : Dec (Forest Token String kind)) :
    Dec (Tree Token String) := do
  let entries ← readRest
  exitContainer
  pure (.node kind entries)

mutual

/-- Reads one value. -/
def readValue : ℕ → Dec (Tree Token String)
  | 0 => diverge
  | n + 1 => do
      let token ← peekTokenInner
      match tokenKind token with
      | some kind => do
          beginContainer kind
          closeContainer (readEntries n kind)
      | none => .scalar <$> takeToken

/-- Reads the entries that are left of an open container. -/
def readEntries : ℕ → (kind : Kind) → Dec (Forest Token String kind)
  | 0, _ => diverge
  | n + 1, kind => do
      match ← nextKey kind with
      | none => pure .nil
      | some key => do
          let value ← readValue n
          let more ← containerSep
          if more then (fun rest => .cons key value rest) <$> readEntries n kind
          else pure (.cons key value .nil)

end

end Decoder

variable {c : Config}

/-- The states that a caller starts to read a value in. -/
structure Ready (c : Config) (s : Decoder) : Prop where
  under : Under c s
  noPending : s.lookahead = none
  inv : Inv s
  here : Tape.Here s ([] : List UInt8)

/-- The decoder behind the next `n` bytes. -/
abbrev after (s : Decoder) (n : ℕ) : Decoder := Tape.advance s n

namespace Ready

variable {s : Decoder}

lemma after {bs : List UInt8} (h : Ready c s) (hbs : Tape.Here s bs) :
    Ready c (after s bs.length) :=
  ⟨h.under, h.noPending, ⟨h.inv.depth_le, h.inv.counts_zero⟩, hbs.after⟩

end Ready

/-! ## Steps -/

lemma pushFrame_eq_ok {s t : Decoder} {a : Unit} :
    pushFrame s = (.ok a, t) ↔ s.depth < s.config.depthLimit ∧ t = { s with depth := s.depth + 1 } := by
  rw [pushFrame, get_bind_run]
  split
  · next h => simp [Nat.not_lt.mpr h]
  · next h => simp [Nat.lt_of_not_le h, eq_comm]

/-- `tokenKind` and `kindToken` are inverse to each other. -/
lemma tokenKind_eq_some {token : Token} {kind : Kind} :
    tokenKind token = some kind ↔ token = kindToken kind := by
  cases token <;> cases kind <;> simp [tokenKind, kindToken]

variable [Target]

/-- A peeked token has been read. -/
lemma peekTokenInner_bind {α : Type} {s : Decoder} (hs : s.lookahead = none) {f : Token → Dec α}
    {a : α} {u : Decoder} :
    (peekTokenInner >>= f) s = (.ok a, u) ↔
      ∃ token t, readToken s = (.ok token, t) ∧
        f token { t with lookahead := some token } = (.ok a, u) := by
  have hpeek : peekTokenInner s = (readToken >>= fun token => do
      modify fun s => { s with lookahead := some token }
      pure token) s := by
    rw [peekTokenInner, get_bind_run, hs]
  rw [bind_eq_ok, hpeek]
  constructor
  · rintro ⟨token, t, htoken, ha⟩
    obtain ⟨token', t', hread, heq⟩ := bind_eq_ok.mp htoken
    obtain ⟨rfl, rfl⟩ : token' = token ∧ { t' with lookahead := some token' } = t := by
      simpa using heq
    exact ⟨_, t', hread, ha⟩
  · rintro ⟨token, t, hread, ha⟩
    exact ⟨token, _, bind_eq_ok.mpr ⟨token, t, hread, rfl⟩, ha⟩

lemma takeToken_pending {s : Decoder} {token : Token} (hs : s.lookahead = some token) :
    takeToken s = (.ok token, { s with lookahead := none }) := by
  rw [takeToken, get_bind_run, hs]
  rfl

lemma beginContainer_pending {s : Decoder} {kind : Kind}
    (hs : s.lookahead = some (kindToken kind)) :
    beginContainer kind s = pushFrame { s with lookahead := none } := by
  cases kind with
  | array =>
      rw [beginContainer, beginArray, expectToken, bind_assoc, bind_of_ok (takeToken_pending hs)]
      rfl
  | object =>
      rw [beginContainer, beginObject, expectToken, bind_assoc, bind_of_ok (takeToken_pending hs)]
      rfl

omit [Target] in
lemma kindToken_inj {kind kind' : Kind} (h : kindToken kind = kindToken kind') : kind = kind' := by
  cases kind <;> cases kind' <;> simp [kindToken] at h ⊢

/-- The tag of a container is not a scalar. -/
lemma token_ne_kindToken (scalar : WireScalar) (kind : Kind) :
    scalar.token c ≠ some (kindToken kind) := by
  intro h
  have hkind := tokenKind_eq_some.mpr (rfl : kindToken kind = kindToken kind)
  cases scalar with
  | int tag word =>
      obtain ⟨number, -, heq⟩ := Option.map_eq_some_iff.mp h
      rw [← heq] at hkind
      simp [tokenKind] at hkind
  | str bytes =>
      obtain ⟨text, -, heq⟩ := Option.map_eq_some_iff.mp h
      rw [← heq] at hkind
      simp [tokenKind] at hkind
  | null | bool | f64 | f32 =>
      rw [← Option.some.inj h] at hkind
      simp [tokenKind] at hkind

/-- One value, from its first token. -/
lemma readValue_succ {n : ℕ} {s u : Decoder} {value : Tree Token String} (hs : Ready c s) :
    readValue (n + 1) s = (.ok value, u) ↔
      (∃ token, readToken s = (.ok token, u) ∧ tokenKind token = none ∧ value = .scalar token) ∨
      ∃ kind t, readToken s = (.ok (kindToken kind), t) ∧ t.depth < t.config.depthLimit ∧
        closeContainer (readEntries n kind) { t with depth := t.depth + 1 } = (.ok value, u) := by
  have hkeep {token : Token} {t : Decoder} (h : readToken s = (.ok token, t)) :
      { t with lookahead := none } = t := by
    obtain ⟨bs, -, -, rfl⟩ := (spells_readToken s hs.under hs.here _ _).mp h
    change ({ after s bs.length with lookahead := none } : Decoder) = _
    rw [← show (after s bs.length).lookahead = none from hs.noPending]
  rw [readValue, peekTokenInner_bind hs.noPending]
  constructor
  · rintro ⟨token, t, hread, h⟩
    cases hkind : tokenKind token with
    | some kind =>
        rw [hkind] at h
        obtain rfl := tokenKind_eq_some.mp hkind
        dsimp only at h
        rw [bind_eq_ok] at h
        obtain ⟨⟨⟩, t', hbegin, h⟩ := h
        rw [beginContainer_pending rfl] at hbegin
        change pushFrame { t with lookahead := none } = _ at hbegin
        rw [hkeep hread, pushFrame_eq_ok] at hbegin
        obtain ⟨hdepth, rfl⟩ := hbegin
        exact .inr ⟨kind, t, hread, hdepth, h⟩
    | none =>
        rw [hkind] at h
        dsimp only at h
        rw [map_of_ok (takeToken_pending rfl)] at h
        change (Outcome.ok (Tree.scalar token), { t with lookahead := none }) = _ at h
        rw [hkeep hread] at h
        simp only [Prod.mk.injEq, Outcome.ok.injEq] at h
        obtain ⟨rfl, rfl⟩ := h
        exact .inl ⟨token, hread, hkind, rfl⟩
  · rintro (⟨token, hread, hkind, rfl⟩ | ⟨kind, t, hread, hdepth, h⟩)
    · refine ⟨token, u, hread, ?_⟩
      simp only [hkind]
      rw [map_of_ok (takeToken_pending rfl)]
      change (Outcome.ok (Tree.scalar token), { u with lookahead := none }) = _
      rw [hkeep hread]
    · refine ⟨_, t, hread, ?_⟩
      simp only [tokenKind_eq_some.mpr rfl]
      have hbegin : beginContainer kind { t with lookahead := some (kindToken kind) }
          = (.ok (), { t with depth := t.depth + 1 }) := by
        rw [beginContainer_pending rfl]
        change pushFrame { t with lookahead := none } = _
        rw [hkeep hread, pushFrame_eq_ok]
        exact ⟨hdepth, rfl⟩
      rw [bind_of_ok hbegin]
      exact h

/-- The byte at the position of the decoder, if there is one. -/
def next (s : Decoder) : Option UInt8 := s.input.bytes[s.cursor]?

omit [Target] in
lemma peekEnd_eq_ok {s t : Decoder} (hs : s.lookahead = none) {finished : Bool} :
    peekEnd s = (.ok finished, t) ↔ t = s ∧ ∃ byte, next s = some byte ∧ finished = (byte == tagEnd) := by
  rw [peekEnd, get_bind_run, hs, Option.isSome_none, if_neg (by simp), bind_eq_ok, next]
  simp only [orFail_eq_ok, peekByte, get_bind_run, okOr_eq_ok, pure_run, Prod.mk.injEq,
    Outcome.ok.injEq]
  constructor
  · rintro ⟨byte, _, ⟨hnext, rfl⟩, rfl, rfl⟩
    exact ⟨rfl, byte, hnext, rfl⟩
  · rintro ⟨rfl, byte, hnext, rfl⟩
    exact ⟨byte, t, ⟨hnext, rfl⟩, rfl, rfl⟩

/-- The spellings of a key. -/
def SpellsKey (c : Config) {kind : Kind} (key : KeyOf String kind) (bs : List UInt8) : Prop :=
  ∃ wire : KeyOf (List UInt8) kind, wire.All (fun bytes => bytes.length < 2 ^ 64) ∧
    wire.mapOption fromUtf8 = some key ∧ bs = spellKey c wire

/-- A string token is spelled by a string. -/
lemma spellsToken_str {text : String} {bs : List UInt8} :
    SpellsToken c (.str text) bs ↔
      ∃ bytes, bytes.length < 2 ^ 64 ∧ fromUtf8 bytes = some text ∧
        bs = tagString :: spellStr c bytes := by
  constructor
  · rintro (⟨scalar, hfits, htoken, rfl⟩ | ⟨kind, htoken, -⟩)
    · cases scalar with
      | str bytes =>
          obtain ⟨text', htext, heq⟩ := Option.map_eq_some_iff.mp htoken
          obtain rfl := Token.str.inj heq
          exact ⟨bytes, hfits, htext, rfl⟩
      | int tag word =>
          obtain ⟨number, -, heq⟩ := Option.map_eq_some_iff.mp htoken
          simp at heq
      | null | bool | f64 | f32 => simp [WireScalar.token] at htoken
    · cases kind <;> simp [kindToken] at htoken
  · rintro ⟨bytes, hlt, htext, rfl⟩
    exact .inl ⟨.str bytes, hlt, by rw [WireScalar.token, htext, Option.map_some], rfl⟩

omit [Target] in
lemma peekEnd_of_next {s : Decoder} (hs : s.lookahead = none) {byte : UInt8}
    (h : next s = some byte) : peekEnd s = (.ok (byte == tagEnd), s) :=
  (peekEnd_eq_ok hs).mpr ⟨rfl, byte, h, rfl⟩

/-- The key in front of an entry. -/
def readKey : (kind : Kind) → Dec (KeyOf String kind)
  | .array => pure ()
  | .object => expectToken "an object key string" fun | .str key => some key | _ => none

lemma spells_readKey {s : Decoder} (hs : Ready c s) {kind : Kind} {key : KeyOf String kind}
    {t : Decoder} :
    readKey kind s = (.ok key, t) ↔
      ∃ bs, SpellsKey c key bs ∧ Tape.Here s bs ∧ t = after s bs.length := by
  cases kind with
  | array =>
      constructor
      · rintro ⟨⟩
        exact ⟨[], ⟨(), trivial, rfl, rfl⟩, hs.here, rfl⟩
      · rintro ⟨_, ⟨wire, -, -, rfl⟩, -, rfl⟩
        rfl
  | object =>
      have htake : takeToken s = readToken s := by
        rw [takeToken, get_bind_run, hs.noPending]
      rw [readKey, expectToken, bind_eq_ok, htake]
      constructor
      · rintro ⟨token, u, hread, h⟩
        obtain ⟨bs, hspell, hbs, rfl⟩ := (spells_readToken s hs.under hs.here _ _).mp hread
        cases token with
        | str text =>
            change (Outcome.ok text, after s bs.length) = (Outcome.ok key, t) at h
            obtain ⟨hkey, rfl⟩ := Prod.mk.inj h
            obtain rfl := Outcome.ok.inj hkey
            obtain ⟨bytes, hlt, htext, rfl⟩ := spellsToken_str.mp hspell
            exact ⟨_, ⟨bytes, hlt, htext, rfl⟩, hbs, rfl⟩
        | null | bool | number | beginObject | endObject | beginArray | endArray =>
            simp [invalidType] at h
      · rintro ⟨bs, ⟨bytes, hlt, htext, rfl⟩, hbs, rfl⟩
        refine ⟨.str key, _, (spells_readToken s hs.under hs.here _ _).mpr ⟨_, ?_, hbs, rfl⟩, rfl⟩
        exact spellsToken_str.mpr ⟨bytes, hlt, htext, rfl⟩

lemma nextKey_of_end {kind : Kind} {s : Decoder} (hs : s.lookahead = none)
    (h : next s = some tagEnd) : nextKey kind s = (.ok none, s) := by
  have hpeek := peekEnd_of_next hs h
  cases kind with
  | array =>
      rw [nextKey, arrayHasMore, bind_of_ok (map_of_ok hpeek)]
      rfl
  | object =>
      rw [nextKey, objectKey, bind_of_ok hpeek]
      rfl

lemma nextKey_of_ne {kind : Kind} {s : Decoder} (hs : s.lookahead = none) {byte : UInt8}
    (h : next s = some byte) (hne : byte ≠ tagEnd) :
    nextKey kind s = (some <$> readKey kind) s := by
  have hpeek := peekEnd_of_next hs h
  have hbeq : (byte == tagEnd) = false := by simpa using hne
  rw [hbeq] at hpeek
  cases kind with
  | array =>
      rw [nextKey, arrayHasMore, bind_of_ok (map_of_ok hpeek)]
      rfl
  | object =>
      rw [nextKey, objectKey, bind_of_ok hpeek]
      rfl

lemma nextKey_ne_ok {kind : Kind} {s t : Decoder} (hs : s.lookahead = none) (h : next s = none)
    {key : Option (KeyOf String kind)} : nextKey kind s ≠ (.ok key, t) := by
  have hpeek : ∀ finished u, peekEnd s ≠ (.ok finished, u) := by
    intro finished u hend
    obtain ⟨-, byte, hnext, -⟩ := (peekEnd_eq_ok hs).mp hend
    simp [h] at hnext
  intro hkey
  cases kind with
  | array =>
      rw [nextKey, arrayHasMore, map_eq_pure_bind, bind_assoc, bind_eq_ok] at hkey
      obtain ⟨finished, u, hend, -⟩ := hkey
      exact hpeek finished u hend
  | object =>
      have hobject : ∀ text : Option String, objectKey s ≠ (.ok text, t) := by
        intro text htext
        rw [objectKey, bind_eq_ok] at htext
        obtain ⟨finished, u, hend, -⟩ := htext
        exact hpeek finished u hend
      exact hobject key hkey

/-! ## Separators -/

/-- The decoder with `k` more separators counted at the level `d`. -/
def counted (s : Decoder) (d k : ℕ) (hd : d < maxDepth) : Decoder :=
  { s with counts := s.counts.set d (s.counts[d] + k) hd }

omit [Target] in
lemma countSep_eq_ok {s t : Decoder} {d : ℕ} (hd : d < maxDepth) (hdepth : s.depth = d + 1)
    {u : Unit} : countSep s = (.ok u, t) ↔ s.counts[d] + 1 ≤ u64Max ∧
      (∀ l, s.config.collectionLimit = some l → s.counts[d] + 1 ≤ l) ∧ t = counted s d 1 hd := by
  rw [countSep, get_bind_run, hdepth]
  dsimp only
  rw [dif_pos hd, bind_eq_ok]
  simp only [orFail_eq_ok, okOr_eq_ok, checkedAdd]
  constructor
  · rintro ⟨count, _, ⟨hmax, rfl⟩, h⟩
    split at hmax
    · next hle =>
        obtain rfl := Option.some.inj hmax
        rw [bind_eq_ok] at h
        obtain ⟨⟨⟩, _, hlimit, h⟩ := h
        rw [orFail_eq_ok, atMost_eq_ok] at hlimit
        obtain ⟨hlimit, rfl⟩ := hlimit
        simp only [modify_run, Prod.mk.injEq, true_and] at h
        exact ⟨hle, hlimit, h.symm⟩
    · simp at hmax
  · rintro ⟨hle, hlimit, rfl⟩
    refine ⟨_, s, ⟨if_pos hle, rfl⟩, ?_⟩
    rw [atMost_of_le hlimit, orFail_pure]
    rfl

omit [Target] in
lemma containerSep_eq_ok {s t : Decoder} {d : ℕ} (hd : d < maxDepth) (hdepth : s.depth = d + 1)
    (hs : s.lookahead = none) {more : Bool} :
    containerSep s = (.ok more, t) ↔ s.counts[d] + 1 ≤ u64Max ∧
      (∀ l, s.config.collectionLimit = some l → s.counts[d] + 1 ≤ l) ∧
      t = counted s d 1 hd ∧ ∃ byte, next s = some byte ∧ more = (byte != tagEnd) := by
  rw [containerSep, bind_eq_ok]
  constructor
  · rintro ⟨⟨⟩, v, hsep, h⟩
    obtain ⟨hle, hlimit, rfl⟩ := (countSep_eq_ok hd hdepth).mp hsep
    rw [get_bind_run, show (counted s d 1 hd).lookahead = none from hs, Option.isSome_none,
      if_neg (by simp), bind_eq_ok] at h
    simp only [orFail_eq_ok, peekByte, get_bind_run, okOr_eq_ok, pure_run, Prod.mk.injEq,
      Outcome.ok.injEq] at h
    obtain ⟨byte, _, ⟨hnext, rfl⟩, rfl, rfl⟩ := h
    exact ⟨hle, hlimit, rfl, byte, hnext, rfl⟩
  · rintro ⟨hle, hlimit, rfl, byte, hnext, rfl⟩
    refine ⟨(), _, (countSep_eq_ok hd hdepth).mpr ⟨hle, hlimit, rfl⟩, ?_⟩
    rw [get_bind_run, show (counted s d 1 hd).lookahead = none from hs, Option.isSome_none,
      if_neg (by simp), bind_eq_ok]
    simp only [orFail_eq_ok, peekByte, get_bind_run, okOr_eq_ok, pure_run, Prod.mk.injEq,
      Outcome.ok.injEq]
    exact ⟨byte, _, ⟨hnext, rfl⟩, rfl, rfl⟩

omit [Target] in
lemma exitContainer_eq_ok {s t : Decoder} {d : ℕ} (hd : d < maxDepth) (hdepth : s.depth = d + 1)
    (hs : Under c s) (hhere : Tape.Here s ([] : List UInt8)) {u : Unit} :
    exitContainer s = (.ok u, t) ↔ Tape.Here s [tagEnd] ∧
      t = { after s 1 with depth := d, counts := s.counts.set d 0 hd } := by
  have hpop : popFrame (after s 1)
      = (.ok (), { after s 1 with depth := d, counts := s.counts.set d 0 hd }) := by
    rw [popFrame, get_bind_run, show (after s 1).depth = d + 1 from hdepth]
    dsimp only
    rw [dif_pos hd]
    rfl
  rw [exitContainer, get_bind_run, if_neg (by omega), bind_eq_ok]
  constructor
  · rintro ⟨terminator, v, hbyte, h⟩
    obtain ⟨_, rfl, hbs, rfl⟩ := (spells_byte s hs hhere _ _).mp hbyte
    split at h
    · exact absurd h fail_ne_ok
    · next hend =>
        obtain rfl := not_not.mp hend
        change popFrame (after s 1) = _ at h
        rw [hpop] at h
        simp only [Prod.mk.injEq, true_and] at h
        exact ⟨hbs, h.symm⟩
  · rintro ⟨hbs, rfl⟩
    refine ⟨tagEnd, _, (spells_byte s hs hhere _ _).mpr ⟨_, rfl, hbs, rfl⟩, ?_⟩
    rw [if_neg (by simp)]
    exact hpop

/-! ## What is read -/

omit [Target] in
lemma counted_zero {s : Decoder} {d : ℕ} (hd : d < maxDepth) : counted s d 0 hd = s := by
  rw [counted, Nat.add_zero, Vector.set_getElem_self]

omit [Target] in
/-- Counting an entry and then the rest is counting all of them. -/
lemma counted_counted (s : Decoder) {d k m a b : ℕ} (hd : d < maxDepth) :
    counted (after (counted (after s a) d k hd) b) d m hd = counted (after s (a + b)) d (k + m) hd := by
  simp only [counted, after, Tape.advance, Vector.set_set, Vector.getElem_set_self, Nat.add_assoc]

/-- The decoder inside the container whose tag is at its position. -/
def inside (s : Decoder) : Decoder := { after s 1 with depth := s.depth + 1 }

omit [Target] in
/-- A container that has been entered and left again leaves its level cleared. -/
lemma leave_inside {s : Decoder} (hs : Inv s) {d : ℕ} (hd : d < maxDepth) (hdepth : s.depth = d)
    (k n : ℕ) :
    ({ after (counted (after (inside s) n) d k hd) 1 with
        depth := d, counts := (counted (after (inside s) n) d k hd).counts.set d 0 hd } : Decoder)
      = after s (1 + n + 1) := by
  have hzero : s.counts[d] = 0 := hs.counts_zero d hd (by omega)
  have hcounts : (s.counts.set d (s.counts[d] + k) hd).set d 0 hd = s.counts := by
    rw [Vector.set_set]
    nth_rewrite 1 [← hzero]
    exact Vector.set_getElem_self hd
  subst hdepth
  simp only [counted, inside, after, Tape.advance, hcounts, Nat.add_assoc]

omit [Target] in
lemma inv_inside {s : Decoder} (hs : Inv s) (h : s.depth < s.config.depthLimit) : Inv (inside s) := by
  have hmax := s.config.depthLimit_le
  refine ⟨?_, fun i hi hle => hs.counts_zero i hi ?_⟩
  · change s.depth + 1 ≤ maxDepth
    omega
  · have : s.depth + 1 ≤ i := hle
    omega

omit [Target] in
lemma inv_counted {s : Decoder} (hs : Inv s) {d k : ℕ} (hd : d < maxDepth) (hdepth : s.depth = d + 1) :
    Inv (counted s d k hd) := by
  refine ⟨hs.depth_le, fun i hi hle => ?_⟩
  have hle : s.depth ≤ i := hle
  rw [counted, Vector.getElem_set_ne _ _ (by omega)]
  exact hs.counts_zero i hi hle

omit [Target] in
lemma Ready.counted {s : Decoder} (hs : Ready c s) {d : ℕ} (hd : d < maxDepth)
    (hdepth : s.depth = d + 1) (k : ℕ) : Ready c (counted s d k hd) :=
  ⟨hs.under, hs.noPending, inv_counted hs.inv hd hdepth, hs.here⟩

/-- What a value that has been read is on the wire. -/
def ReadsValue (c : Config) (s : Decoder) (value : Tree Token String) (t : Decoder) : Prop :=
  ∃ wire : WireValue, Fits c wire ∧ decodeValue c wire = some value ∧
    wire.Within c.collectionLimit (c.depthLimit - s.depth) ∧
    Tape.Here s (spellValue c wire) ∧ t = after s (spellValue c wire).length

/-- What entries that have been read are on the wire, inside an open container. -/
def ReadsEntries (c : Config) (s : Decoder) {kind : Kind} (entries : Forest Token String kind)
    (t : Decoder) : Prop :=
  ∃ wire : WireEntries kind, wire.All (WireScalar.Fits c) (fun key => key.length < 2 ^ 64) ∧
    wire.mapOption (WireScalar.token c) fromUtf8 = some entries ∧
    wire.Within c.collectionLimit (c.depthLimit - s.depth) ∧
    Tape.Here s (spellEntries c wire) ∧
    ∀ (d : ℕ) (hd : d < maxDepth), s.depth = d + 1 →
      (0 < wire.length → ∀ l, c.collectionLimit = some l → s.counts[d] + wire.length ≤ l) ∧
      t = counted (after s (spellEntries c wire).length) d wire.length hd

/-- Reading succeeds on values of the wire only. -/
lemma readValue_sound (n : ℕ) :
    (∀ s t value, Ready c s → readValue n s = (.ok value, t) → ReadsValue c s value t) ∧
      ∀ (s t : Decoder) (kind : Kind) (entries : Forest Token String kind), Ready c s → 0 < s.depth →
        readEntries n kind s = (.ok entries, t) → ReadsEntries c s entries t := by
  induction n with
  | zero =>
      constructor
      · intro s t value _ h
        simp [readValue] at h
      · intro s t kind entries _ _ h
        simp [readEntries] at h
  | succ n ih =>
      constructor
      · intro s u value hs h
        rcases (readValue_succ hs).mp h with ⟨token, hread, hkind, rfl⟩ | ⟨kind, t, hread, hdepth, h⟩
        · -- a scalar is one token
          obtain ⟨bs, hspell, hbs, rfl⟩ := (spells_readToken s hs.under hs.here _ _).mp hread
          rcases hspell with ⟨scalar, hfits, htoken, rfl⟩ | ⟨kind, rfl, -⟩
          · refine ⟨.scalar scalar, hfits, ?_, trivial, hbs, rfl⟩
            rw [decodeValue, Tree.mapOption, htoken, Option.map_some]
          · rw [tokenKind_eq_some.mpr rfl] at hkind
            simp at hkind
        · -- a container is a tag, its entries and the terminator
          obtain ⟨bs, hspell, hbs, rfl⟩ := (spells_readToken s hs.under hs.here _ _).mp hread
          obtain rfl : bs = [kindTag kind] := by
            rcases hspell with ⟨scalar, -, htoken, -⟩ | ⟨kind', hkind, rfl⟩
            · exact absurd htoken (token_ne_kindToken scalar kind)
            · rw [kindToken_inj hkind]
          have hlt : s.depth < s.config.depthLimit := hdepth
          have hd : s.depth < maxDepth := hlt.trans_le s.config.depthLimit_le
          change closeContainer (readEntries n kind) (inside s) = _ at h
          rw [closeContainer, bind_eq_ok] at h
          obtain ⟨entries, v, hentries, h⟩ := h
          have hinside : Ready c (inside s) :=
            ⟨hs.under, hs.noPending, inv_inside hs.inv hlt, hbs.after⟩
          obtain ⟨wire, hfits, hdecode, hwithin, hhere, hcount⟩ :=
            ih.2 (inside s) v kind entries hinside (Nat.succ_pos _) hentries
          obtain ⟨hlimit, rfl⟩ := hcount s.depth hd rfl
          rw [bind_eq_ok] at h
          obtain ⟨⟨⟩, w, hexit, h⟩ := h
          have hafter := (hinside.after hhere).counted hd rfl wire.length
          obtain ⟨hend, rfl⟩ := (exitContainer_eq_ok hd rfl hafter.under hafter.here).mp hexit
          simp only [pure_run, Prod.mk.injEq, Outcome.ok.injEq] at h
          obtain ⟨rfl, rfl⟩ := h
          have hzero : (inside s).counts[s.depth] = 0 := hs.inv.counts_zero s.depth hd (Nat.le_refl _)
          refine ⟨.node kind wire, hfits, ?_, ?_, ?_, ?_⟩
          · rw [decodeValue, Tree.mapOption, hdecode, Option.map_some]
          · rw [← hs.under]
            refine ⟨by omega, fun l hl => ?_, ?_⟩
            · rcases Nat.eq_zero_or_pos wire.length with hnil | hpos
              · omega
              · have := hlimit hpos l (by rw [← hs.under]; exact hl)
                omega
            · rw [Nat.sub_sub]
              rw [← hs.under] at hwithin
              exact hwithin
          · exact (Tape.here_append s [kindTag kind] _).mpr
              ⟨hbs, (Tape.here_append (inside s) _ [tagEnd]).mpr ⟨hhere, hend⟩⟩
          · rw [leave_inside hs.inv hd rfl, spellValue]
            congr 1
            simp only [List.length_cons, List.length_append, List.length_nil]
            omega
      · intro s u kind entries hs hpos h
        obtain ⟨d, hdepth⟩ : ∃ d, s.depth = d + 1 := ⟨s.depth - 1, by omega⟩
        have hd : d < maxDepth := by
          have := hs.inv.depth_le
          omega
        rw [readEntries, bind_eq_ok] at h
        obtain ⟨key, t₁, hkey, h⟩ := h
        cases hnext : next s with
        | none => exact absurd hkey (nextKey_ne_ok hs.noPending hnext)
        | some byte =>
            by_cases hend : byte = tagEnd
            · -- no entry is left
              subst hend
              rw [nextKey_of_end hs.noPending hnext] at hkey
              simp only [Prod.mk.injEq, Outcome.ok.injEq] at hkey
              obtain ⟨rfl, rfl⟩ := hkey
              simp only [pure_run, Prod.mk.injEq, Outcome.ok.injEq] at h
              obtain ⟨rfl, rfl⟩ := h
              refine ⟨.nil, trivial, rfl, trivial, hs.here, fun d' hd' hdepth' => ⟨?_, ?_⟩⟩
              · simp [Forest.length]
              · exact (counted_zero hd').symm
            · -- one entry, its separator, and the rest
              rw [nextKey_of_ne hs.noPending hnext hend, map_eq_ok] at hkey
              obtain ⟨key, hkey, rfl⟩ := hkey
              obtain ⟨ks, ⟨wireKey, hkeyFits, hkeyText, rfl⟩, hks, rfl⟩ := (spells_readKey hs).mp hkey
              dsimp only at h
              rw [bind_eq_ok] at h
              obtain ⟨value, t₂, hvalue, h⟩ := h
              have hs₁ := hs.after hks
              obtain ⟨wireValue, hvalueFits, hvalueText, hvalueWithin, hvs, rfl⟩ :=
                ih.1 _ _ _ hs₁ hvalue
              rw [bind_eq_ok] at h
              obtain ⟨more, t₃, hsep, h⟩ := h
              have hs₂ := hs₁.after hvs
              have hdepth₂ : (after (after s (spellKey c wireKey).length)
                  (spellValue c wireValue).length).depth = d + 1 := hdepth
              obtain ⟨-, hone, rfl, -⟩ := (containerSep_eq_ok hd hdepth₂ hs₂.noPending).mp hsep
              have hs₃ := hs₂.counted hd hdepth 1
              have hrest : ∃ rest, entries = .cons key value rest ∧
                  ReadsEntries c (counted (after (after s (spellKey c wireKey).length)
                    (spellValue c wireValue).length) d 1 hd) rest u := by
                split at h
                · obtain ⟨rest, hrest, rfl⟩ := map_eq_ok.mp h
                  exact ⟨rest, rfl, ih.2 _ _ _ _ hs₃ hpos hrest⟩
                · simp only [pure_run, Prod.mk.injEq, Outcome.ok.injEq] at h
                  obtain ⟨rfl, rfl⟩ := h
                  refine ⟨.nil, rfl, .nil, trivial, rfl, trivial, hs₃.here,
                    fun d' hd' hdepth' => ⟨?_, ?_⟩⟩
                  · simp [Forest.length]
                  · exact (counted_zero hd').symm
              obtain ⟨rest, rfl, wireRest, hrestFits, hrestText, hrestWithin, hrs, hrestCount⟩ := hrest
              obtain ⟨hlimit, rfl⟩ := hrestCount d hd hdepth
              refine ⟨.cons wireKey wireValue wireRest, ⟨hkeyFits, hvalueFits, hrestFits⟩, ?_,
                ⟨hvalueWithin, hrestWithin⟩, ?_, fun d' hd' hdepth' => ?_⟩
              · exact Forest.mapOption_cons_eq_some.mpr
                  ⟨_, _, _, hkeyText, hvalueText, hrestText, rfl⟩
              · exact (Tape.here_append s _ _).mpr ⟨hks, (Tape.here_append _ _ _).mpr ⟨hvs, hrs⟩⟩
              · obtain rfl : d' = d := by omega
                have hcount : (counted (after (after s (spellKey c wireKey).length)
                    (spellValue c wireValue).length) d' 1 hd).counts[d'] = s.counts[d'] + 1 :=
                  Vector.getElem_set_self hd
                rw [hcount] at hlimit
                refine ⟨fun _ l hl => ?_, ?_⟩
                · rw [Forest.length]
                  rcases Nat.eq_zero_or_pos wireRest.length with hnil | hpos'
                  · rw [← hs.under] at hl
                    have : s.counts[d'] + 1 ≤ l := hone l hl
                    omega
                  · have := hlimit hpos' l hl
                    omega
                · rw [counted_counted, Forest.length, spellEntries, List.length_append,
                    List.length_append, Nat.add_comm 1 wireRest.length]
                  simp only [counted, after, Tape.advance, Nat.add_assoc]

omit [Target] in
lemma next_of_here {s : Decoder} {byte : UInt8} {bs : List UInt8} (h : Tape.Here s (byte :: bs)) :
    next s = some byte := by
  obtain ⟨⟨hslice, -⟩, -⟩ := window_append.mp (show Window _ _ _ ([byte] ++ bs) from h)
  rw [List.length_singleton, slice_one] at hslice
  obtain ⟨byte', hnext, heq⟩ := Option.map_eq_some_iff.mp hslice
  rw [next, hnext, List.singleton_inj.mp heq]

/-- No value starts with the terminator. -/
lemma spellValue_cons (wire : WireValue) :
    ∃ byte bs, spellValue c wire = byte :: bs ∧ byte ≠ tagEnd := by
  cases wire with
  | scalar scalar =>
      rw [spellValue]
      cases scalar with
      | null => exact ⟨_, _, rfl, by decide⟩
      | bool value => cases value <;> exact ⟨_, _, rfl, by decide⟩
      | int tag word => exact ⟨_, _, rfl, by cases tag <;> decide⟩
      | f64 | f32 | str => exact ⟨_, _, rfl, by decide⟩
  | node kind entries => exact ⟨_, _, rfl, by cases kind <;> decide⟩

/-- No entry starts with the terminator. -/
lemma spellEntry_cons {kind : Kind} (key : KeyOf (List UInt8) kind) (wire : WireValue) :
    ∃ byte bs, spellKey c key ++ spellValue c wire = byte :: bs ∧ byte ≠ tagEnd := by
  cases kind with
  | array => exact spellValue_cons wire
  | object => exact ⟨_, _, rfl, by decide⟩

lemma spellValue_pos (wire : WireValue) : 0 < (spellValue c wire).length := by
  obtain ⟨byte, bs, h, -⟩ := spellValue_cons (c := c) wire
  rw [h, List.length_cons]
  exact Nat.succ_pos _

mutual

/-- A value has a byte for every round of its reader. -/
lemma rounds_le_value : ∀ wire : WireValue, wire.rounds ≤ (spellValue c wire).length
  | .scalar scalar => spellValue_pos (.scalar scalar)
  | .node kind entries => by
      have h := rounds_le_entries entries
      rw [Tree.rounds, spellValue, List.length_cons, List.length_append, List.length_singleton]
      omega

lemma rounds_le_entries {kind : Kind} :
    ∀ entries : WireEntries kind, entries.rounds ≤ (spellEntries c entries).length + 1
  | .nil => Nat.succ_pos _
  | .cons key value rest => by
      have hvalue := rounds_le_value value
      have hrest := rounds_le_entries rest
      have hpos := spellValue_pos (c := c) value
      rw [Forest.rounds, spellEntries, List.length_append, List.length_append]
      omega

end

/-- Reading succeeds on the values of the wire that the limits admit. -/
lemma readValue_complete (n : ℕ) :
    (∀ (s : Decoder) (wire : WireValue) (value : Tree Token String), Ready c s → wire.rounds ≤ n →
        Fits c wire → decodeValue c wire = some value →
        wire.Within c.collectionLimit (c.depthLimit - s.depth) → Tape.Here s (spellValue c wire) →
        readValue n s = (.ok value, after s (spellValue c wire).length)) ∧
      ∀ (s : Decoder) (d : ℕ) (hd : d < maxDepth) (kind : Kind) (wire : WireEntries kind)
        (entries : Forest Token String kind), Ready c s → s.depth = d + 1 → wire.rounds ≤ n →
        wire.All (WireScalar.Fits c) (fun key => key.length < 2 ^ 64) →
        wire.mapOption (WireScalar.token c) fromUtf8 = some entries →
        wire.Within c.collectionLimit (c.depthLimit - s.depth) →
        (∀ l, c.collectionLimit = some l → s.counts[d] + wire.length ≤ l) →
        s.counts[d] ≤ s.cursor → Tape.Here s (spellEntries c wire ++ [tagEnd]) →
        readEntries n kind s
          = (.ok entries, counted (after s (spellEntries c wire).length) d wire.length hd) := by
  induction n with
  | zero =>
      constructor
      · intro s wire value _ hrounds
        cases wire <;> simp [Tree.rounds] at hrounds
      · intro s d hd kind wire entries _ _ hrounds
        cases wire <;> simp [Forest.rounds] at hrounds
  | succ n ih =>
      constructor
      · intro s wire value hs hrounds hfits hdecode hwithin hhere
        rw [readValue_succ hs]
        cases wire with
        | scalar scalar =>
            rw [decodeValue, Tree.mapOption] at hdecode
            obtain ⟨token, htoken, rfl⟩ := Option.map_eq_some_iff.mp hdecode
            refine .inl ⟨token, ?_, ?_, rfl⟩
            · exact (spells_readToken s hs.under hs.here _ _).mpr
                ⟨_, .inl ⟨scalar, hfits, htoken, rfl⟩, hhere, rfl⟩
            · cases hkind : tokenKind token with
              | none => rfl
              | some kind =>
                  rw [tokenKind_eq_some.mp hkind] at htoken
                  exact absurd htoken (token_ne_kindToken scalar kind)
        | node kind entries =>
            rw [decodeValue, Tree.mapOption] at hdecode
            obtain ⟨out, hout, rfl⟩ := Option.map_eq_some_iff.mp hdecode
            obtain ⟨hroom, hlimit, hwithin⟩ := hwithin
            have hlt : s.depth < s.config.depthLimit := by
              rw [show s.config = c from hs.under]
              omega
            have hd : s.depth < maxDepth := hlt.trans_le s.config.depthLimit_le
            obtain ⟨htag, hrest⟩ := (Tape.here_append s [kindTag kind] _).mp hhere
            have hinside : Ready c (inside s) :=
              ⟨hs.under, hs.noPending, inv_inside hs.inv hlt, htag.after⟩
            have hzero : (inside s).counts[s.depth] = 0 :=
              hs.inv.counts_zero s.depth hd (Nat.le_refl _)
            have hentries := ih.2 (inside s) s.depth hd kind entries out hinside rfl
              (by rw [Tree.rounds] at hrounds; omega) hfits hout
              (by rw [Nat.sub_sub] at hwithin; exact hwithin)
              (fun l hl => by have := hlimit l hl; omega) (by omega) hrest
            refine .inr ⟨kind, after s 1, ?_, hlt, ?_⟩
            · exact (spells_readToken s hs.under hs.here _ _).mpr
                ⟨_, .inr ⟨kind, rfl, rfl⟩, htag, rfl⟩
            · change closeContainer (readEntries n kind) (inside s) = _
              obtain ⟨hes, hend⟩ := (Tape.here_append (inside s) _ [tagEnd]).mp hrest
              have hafter := (hinside.after hes).counted hd rfl entries.length
              rw [closeContainer, bind_of_ok hentries, bind_of_ok (a := ())
                ((exitContainer_eq_ok hd rfl hafter.under hafter.here).mpr ⟨hend, rfl⟩),
                leave_inside hs.inv hd rfl, spellValue]
              simp only [List.length_cons, List.length_append, List.length_nil, pure_run]
              congr 2
              omega
      · intro s d hd kind wire entries hs hdepth hrounds hfits hdecode hwithin hlimit hcursor hhere
        rw [readEntries]
        cases wire with
        | nil =>
            rw [Forest.mapOption, Option.some.injEq] at hdecode
            subst hdecode
            rw [bind_of_ok (nextKey_of_end hs.noPending (next_of_here hhere)), Forest.length,
              counted_zero]
            rfl
        | cons key value rest =>
            obtain ⟨key', value', rest', hkey, hvalue, hrest, rfl⟩ :=
              Forest.mapOption_cons_eq_some.mp hdecode
            obtain ⟨hkeyFits, hvalueFits, hrestFits⟩ := hfits
            obtain ⟨hvalueWithin, hrestWithin⟩ := hwithin
            rw [Forest.rounds] at hrounds
            have hvalueRounds : value.rounds ≤ n := by omega
            have hrestRounds : rest.rounds ≤ n := by omega
            -- the entry does not start with the terminator
            obtain ⟨byte, bs, hcons, hne⟩ := spellEntry_cons (c := c) key value
            have hshape : spellEntries c (.cons key value rest) ++ [tagEnd]
                = byte :: (bs ++ (spellEntries c rest ++ [tagEnd])) := by
              rw [spellEntries, ← List.append_assoc, hcons, List.append_assoc, List.cons_append]
            have hnext : next s = some byte := by
              rw [hshape] at hhere
              exact next_of_here hhere
            rw [spellEntries, List.append_assoc, List.append_assoc] at hhere
            obtain ⟨hks, hhere⟩ := (Tape.here_append s _ _).mp hhere
            obtain ⟨hvs, hhere⟩ := (Tape.here_append _ _ _).mp hhere
            have hs₁ := hs.after hks
            have hs₂ := hs₁.after hvs
            have hs₃ := hs₂.counted hd hdepth 1
            have hreadKey : nextKey kind s = (.ok (some key'), after s (spellKey c key).length) := by
              rw [nextKey_of_ne hs.noPending hnext hne]
              exact map_of_ok ((spells_readKey hs).mpr
                ⟨_, ⟨key, hkeyFits, hkey, rfl⟩, hks, rfl⟩)
            have hreadValue := ih.1 _ value value' hs₁ hvalueRounds hvalueFits hvalue hvalueWithin hvs
            have hdepth₂ : (after (after s (spellKey c key).length) (spellValue c value).length).depth
                = d + 1 := hdepth
            -- one more separator neither overflows nor passes the limit
            have hmax : s.counts[d] + 1 ≤ u64Max := by
              have hlt : s.cursor < s.input.bytes.length := (List.getElem?_eq_some_iff.mp hnext).1
              have hle := s.input.length_le
              omega
            have hone : ∀ l, s.config.collectionLimit = some l → s.counts[d] + 1 ≤ l := by
              intro l hl
              rw [show s.config = c from hs.under] at hl
              have hle := hlimit l hl
              rw [Forest.length] at hle
              omega
            have hcount : (counted (after (after s (spellKey c key).length)
                (spellValue c value).length) d 1 hd).counts[d] = s.counts[d] + 1 :=
              Vector.getElem_set_self hd
            have hlen : 0 < (spellKey c key).length + (spellValue c value).length := by
              rw [← List.length_append, hcons, List.length_cons]
              omega
            have hfinal : counted (after (counted (after (after s (spellKey c key).length)
                  (spellValue c value).length) d 1 hd) (spellEntries c rest).length) d rest.length hd
                = counted (after s (spellEntries c (.cons key value rest)).length) d
                    (Forest.cons key value rest).length hd := by
              rw [counted_counted, Forest.length, spellEntries, List.length_append,
                List.length_append, Nat.add_comm 1 rest.length]
              simp only [counted, after, Tape.advance, Nat.add_assoc]
            rw [bind_of_ok hreadKey]
            dsimp only
            rw [bind_of_ok hreadValue, ← hfinal]
            cases rest with
            | nil =>
                have hsep := (containerSep_eq_ok hd hdepth₂ hs₂.noPending).mpr
                  ⟨hmax, hone, rfl, tagEnd, next_of_here hhere, rfl⟩
                rw [bind_of_ok hsep]
                rw [Forest.mapOption, Option.some.injEq] at hrest
                subst hrest
                rw [if_neg (by simp), Forest.length, counted_zero]
                rfl
            | cons key₂ value₂ rest₂ =>
                obtain ⟨byte₂, bs₂, hcons₂, hne₂⟩ := spellEntry_cons (c := c) key₂ value₂
                have hnext₂ : next (after (after s (spellKey c key).length)
                    (spellValue c value).length) = some byte₂ := by
                  rw [spellEntries, ← List.append_assoc (spellKey c key₂), hcons₂] at hhere
                  exact next_of_here hhere
                have hsep := (containerSep_eq_ok hd hdepth₂ hs₂.noPending).mpr
                  ⟨hmax, hone, rfl, byte₂, hnext₂, rfl⟩
                have hreadRest := ih.2 (counted (after (after s (spellKey c key).length)
                    (spellValue c value).length) d 1 hd) d hd kind (.cons key₂ value₂ rest₂) rest' hs₃
                  hdepth hrestRounds hrestFits hrest hrestWithin
                  (fun l hl => by
                    have hle := hlimit l hl
                    rw [Forest.length] at hle
                    omega)
                  (by
                    have hcursor₂ : (counted (after (after s (spellKey c key).length)
                      (spellValue c value).length) d 1 hd).cursor
                        = s.cursor + (spellKey c key).length + (spellValue c value).length := rfl
                    omega)
                  hhere
                rw [bind_of_ok hsep, if_pos (by simpa using hne₂)]
                exact map_of_ok hreadRest

omit [Target] in
lemma ready_new (input : Input) (config : Config) : Ready config (new input config) :=
  ⟨rfl, rfl, inv_new input config,
    slice_eq_some.mpr ⟨Nat.le_refl _, Nat.zero_le _, rfl⟩, fun _ _ => Nat.zero_le _⟩

/-- What a caller reads from the beginning of an input, given enough rounds. -/
theorem readValue_new_iff {input : Input} {value : Tree Token String} {t : Decoder} :
    (∃ n, readValue n (new input c) = (.ok value, t)) ↔ ReadsValue c (new input c) value t := by
  constructor
  · rintro ⟨n, h⟩
    exact (readValue_sound n).1 _ _ _ (ready_new input c) h
  · rintro ⟨wire, hfits, hdecode, hwithin, hhere, rfl⟩
    exact ⟨_, (readValue_complete _).1 _ wire value (ready_new input c) (Nat.le_refl _) hfits
      hdecode hwithin hhere⟩

end RustBinary.Native
