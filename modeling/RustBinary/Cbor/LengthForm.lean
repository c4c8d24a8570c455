import RustBinary.Cbor.Twin
import RustBinary.Cbor.Invariant

/-!
# Definite and indefinite length

A definite container ends when its remaining count is zero, an indefinite one at its break
byte.  The two agree as long as every element is charged to the container that holds it.
Tokens are charged when they are read; a null that `option_tag` reads as a missing value and
a byte string that `bytes` reads are not (`Item.charged`).  So an item reads as its twin of
indefinite length does if and only if no definite container in it directly holds an element
that is not charged (`Item.Charges`).

The induction goes through the elements of a container with a surplus: a definite container
with `surplus + n` elements still to be read, of which `n` are there.
-/

namespace RustBinary.Cbor

open Lib Lib.Act CborDecoder

/-! ## Inside a container -/

/-- No token is pending and the counters at and above the depth are zero. -/
structure Ready (s : CborDecoder) : Prop where
  noPending : s.lookahead = none
  counts_zero : ∀ (i : ℕ) (hi : i < maxDepth), s.depth ≤ i → s.counts[i] = 0

/-- The counter of the next container is zero. -/
lemma Ready.set_counts {s : CborDecoder} (h : Ready s) (hdepth : s.depth < maxDepth) :
    s.counts.set s.depth 0 hdepth = s.counts := by
  have hzero : s.counts[s.depth] = 0 := h.counts_zero _ hdepth (Nat.le_refl _)
  conv_lhs => rw [← hzero]
  exact Vector.set_getElem_self hdepth

/-- The decoder is inside a container of kind `kind` with remaining count `top`. -/
structure Inside (s : CborDecoder) (outer : List Frame) (kind : ContainerKind)
    (top : Option ℕ) (d : ℕ) : Prop extends Ready s where
  frames : s.frames = outer ++ [⟨kind, top⟩]
  depth : s.depth = d + 1
  lt : d < maxDepth

namespace Inside

variable {s : CborDecoder} {outer : List Frame} {kind : ContainerKind} {top : Option ℕ} {d : ℕ}

lemma last (h : Inside s outer kind top d) : s.frames.getLast? = some ⟨kind, top⟩ := by
  rw [h.frames]
  simp

lemma hasRoom (h : Inside s outer kind top d) (htop : top ≠ some 0) : HasRoom s := by
  intro kind' hlast
  rw [h.last] at hlast
  cases hlast
  exact htop rfl

lemma advance (h : Inside s outer kind top d) (n : ℕ) : Inside (s.advance n) outer kind top d :=
  ⟨⟨h.noPending, h.counts_zero⟩, h.frames, h.depth, h.lt⟩

end Inside

/-- An element of a container charged to it. -/
lemma chargeTop_append (outer : List Frame) (kind : ContainerKind) (top : Option ℕ) :
    chargeTop (outer ++ [⟨kind, top⟩]) = outer ++ [⟨kind, top.map (· - 1)⟩] := by
  rcases top with _ | _ | n <;> simp [chargeTop]

lemma atEnd_definite (kind : ContainerKind) (n : ℕ) (s : CborDecoder) :
    atEnd ⟨kind, some n⟩ s = (.ok (n == 0), s) := rfl

lemma atEnd_indefinite {kind : ContainerKind} {byte : UInt8} {bs : List UInt8}
    {s : CborDecoder} (h : Next s (byte :: bs)) :
    atEnd ⟨kind, none⟩ s = (.ok (byte == 0xff), s) := by
  rw [atEnd]
  dsimp only
  rw [bind_of_ok (peekByte_next h)]
  rfl

/-- A container with an element left, whose bytes come next, is not at its end. -/
lemma atEnd_false {s : CborDecoder} {kind : ContainerKind} {top : Option ℕ} {byte : UInt8}
    {bs : List UInt8} (htop : top ≠ some 0) (h : Next s (byte :: bs)) (hbyte : byte ≠ 0xff) :
    atEnd ⟨kind, top⟩ s = (.ok false, s) := by
  rcases top with _ | _ | n
  · rw [atEnd_indefinite h, beq_false_of_ne hbyte]
  · exact absurd rfl htop
  · exact atEnd_definite kind (n + 1) s

lemma hasMore_inside {s : CborDecoder} {outer : List Frame} {kind : ContainerKind}
    {top : Option ℕ} {d : ℕ} {finished : Bool} (h : Inside s outer kind top d)
    (hend : atEnd ⟨kind, top⟩ s = (.ok finished, s)) : hasMore s = (.ok !finished, s) := by
  rw [hasMore, get_bind_run, h.noPending, h.last]
  dsimp only [Option.isSome_none]
  rw [if_neg (by simp), bind_of_ok hend]
  rfl

/-! ## Opening and closing -/

/-- Opening a container charges it to the one that holds it. -/
lemma readToken_open {s : CborDecoder} {kind : ContainerKind} {framing : Framing} {n : ℕ}
    (hfits : framing.Fits n) (hdepth : s.depth < maxDepth)
    (hlim : ∀ l, s.config.collectionLimit = some l → n ≤ l) (hroom : HasRoom s)
    (h : Next s (framing.openBytes kind n)) :
    readToken s = (.ok kind.token,
      { (s.advance (framing.openBytes kind n).length).charge with
        frames := chargeTop s.frames ++ [⟨kind, framing.surplus.map (n + ·)⟩]
        depth := s.depth + 1 }) := by
  have hhead : ∃ argument, readHead s =
        (.ok (kind.major, argument), s.advance (framing.openBytes kind n).length) ∧
      ∀ invalid, containerLength argument invalid = pure (framing.surplus.map (n + ·)) := by
    cases framing with
    | definite width =>
        exact ⟨_, readHead_head (by cases kind <;> decide) hfits h, fun _ => rfl⟩
    | indefinite =>
        exact ⟨_, readHead_openHead (by cases kind <;> decide) h, fun _ => rfl⟩
  obtain ⟨argument, hhead, hlength⟩ := hhead
  have hdec := decRemaining_charge (s := s.advance (framing.openBytes kind n).length) hroom
  have henter : ∀ definite, definite = framing.surplus.map (n + ·) →
      enterContainer kind definite (s.advance (framing.openBytes kind n).length).charge =
      (.ok (), { (s.advance (framing.openBytes kind n).length).charge with
        frames := chargeTop s.frames ++ [⟨kind, definite⟩], depth := s.depth + 1 }) := by
    rintro definite rfl
    refine enterContainer_of_lt _ hdepth fun count hcount l hl => ?_
    cases framing with
    | definite width =>
        cases hcount
        exact hlim l hl
    | indefinite => cases hcount
  refine readToken_of_head hhead ?_
  cases kind with
  | array =>
      change tokenOf 4 argument _ = _
      rw [tokenOf, bind_of_ok hdec, hlength, pure_bind, bind_of_ok (henter _ rfl)]
      rfl
  | object =>
      change tokenOf 5 argument _ = _
      rw [tokenOf, bind_of_ok hdec, hlength, pure_bind, bind_of_ok (henter _ rfl)]
      rfl

/-- Leaving the open container. -/
lemma popFrame_inside {s : CborDecoder} {outer : List Frame} {kind : ContainerKind}
    {top : Option ℕ} {d : ℕ} (hd : d < maxDepth) (h : Inside s outer kind top d) :
    popFrame kind s =
      (.ok (), { s with frames := outer, depth := d, counts := s.counts.set d 0 hd }) := by
  rcases popFrame_cases s kind with
    ⟨d', hd', definite, hdepth, -, heq⟩ | ⟨hno, -⟩ | ⟨-, hno, -⟩
  · have hsame : d' = d := by
      have := h.depth
      omega
    subst hsame
    rw [heq, h.frames]
    simp
  · exact absurd h.last (hno _)
  · have := h.depth
    have := h.lt
    omega

/-- Closing a container that is at its end. -/
lemma endContainer_inside {s : CborDecoder} {outer : List Frame} {kind : ContainerKind}
    {framing : Framing} {d : ℕ} (hd : d < maxDepth)
    (h : Inside s outer kind framing.surplus d) (hnext : Next s framing.closeBytes) :
    endContainer kind s =
      (.ok (), { s with
        cursor := s.cursor + framing.closeBytes.length, frames := outer, depth := d
        counts := s.counts.set d 0 hd }) := by
  have hpass : passEnd s = (.ok (), s.advance framing.closeBytes.length) := by
    rw [passEnd, get_bind_run, h.noPending, h.last]
    cases framing with
    | definite width => rfl
    | indefinite =>
        dsimp only [Framing.surplus, expectBreak]
        rw [bind_of_ok (peekByte_next hnext), if_neg (by simp), bumpCursor_next hnext]
        rfl
  have hempty : framing.surplus = none ∨ framing.surplus = some 0 := by
    cases framing with
    | definite width => exact .inr rfl
    | indefinite => exact .inl rfl
  have ht := h.advance framing.closeBytes.length
  have hclose : closeFrame kind (s.advance framing.closeBytes.length) =
      popFrame kind (s.advance framing.closeBytes.length) := by
    rw [closeFrame, get_bind_run, ht.last]
    dsimp only
    rw [if_pos hempty]
  rw [endContainer, bind_of_ok hpass, hclose, popFrame_inside hd ht]
  rfl

/-! ## Keys and separators -/

variable (narrow : Number → Option UInt8)

lemma run_key {s : CborDecoder} {outer : List Frame} {kind : ContainerKind} {top : Option ℕ}
    {d : ℕ} (h : Inside s outer kind top d) (htop : top ≠ some 0) (key : KeyOf kind)
    (hnext : Next s (keyBytes key)) :
    run (step narrow) (keyCalls key) s =
      ((keyRets key).map .ok, s.advance (keyBytes key).length) := by
  cases kind with
  | array => rfl
  | object =>
      obtain ⟨byte, bs, hbytes, hbyte⟩ :=
        ByteString.encode_cons (by decide : 3 < 7) (Text.form key)
      have hfirst : Next s (byte :: bs) := by
        rw [← hbytes]
        exact hnext
      have hbreak : byte ≠ 0xff := ne_of_major hbyte (by decide) (by decide)
      have htext : Next s ((Text.form key).encode 3) := hnext
      obtain ⟨argument, t, hhead, htext⟩ := readText_next htext
      have hkey : objectKey s =
          (.ok (some (Text.value key)), s.advance ((Text.form key).encode 3).length) := by
        rw [objectKey, get_bind_run, h.noPending, h.last]
        dsimp only
        rw [if_neg (by simp), bind_of_ok (atEnd_false htop hfirst hbreak), if_neg (by simp),
          bind_of_ok hhead]
        dsimp only
        rw [if_neg (by simp), bind_of_ok htext]
        rfl
      have hstep : step narrow (.required .objectKey) s =
          (.ok (.key (some (Text.value key))), s.advance ((Text.form key).encode 3).length) :=
        map_of_ok hkey
      exact run_cons_of hstep

lemma step_sep {s : CborDecoder} {outer : List Frame} {kind : ContainerKind} {top : Option ℕ}
    {d : ℕ} {finished : Bool} (hd : d < maxDepth) (h : Inside s outer kind top d)
    (hmax : s.counts[d] + 1 ≤ u64Max)
    (hlim : ∀ l, s.config.collectionLimit = some l → s.counts[d] + 1 ≤ l)
    (hend : ∀ counts, atEnd ⟨kind, top⟩ { s with counts := counts } =
      (.ok finished, { s with counts := counts })) :
    step narrow (sepCall kind) s =
      (.ok (.bool !finished), { s with counts := s.counts.set d (s.counts[d] + 1) hd }) := by
  have hcount := countElement_of_le s hd h.depth hmax hlim
  have hinside : Inside { s with counts := s.counts.set d (s.counts[d] + 1) hd } outer kind
      top d := by
    refine ⟨⟨h.noPending, fun i hi hle => ?_⟩, h.frames, h.depth, h.lt⟩
    have hle' : s.depth ≤ i := hle
    have hne : d ≠ i := by
      have := h.depth
      omega
    exact (Vector.getElem_set_ne hd hi hne).trans (h.counts_zero i hi hle')
  have hsep : entrySep s =
      (.ok !finished, { s with counts := s.counts.set d (s.counts[d] + 1) hd }) := by
    rw [entrySep, bind_of_ok hcount]
    exact hasMore_inside hinside (hend _)
  cases kind <;> exact map_of_ok hsep

/-! ## Where a container ends -/

/-- The bytes after the elements of a container. -/
def closing : Option ℕ → List UInt8
  | none => [0xff]
  | some _ => []

/-- Whether a definite container has a remaining count after its last element, `n` of whose
elements have not been charged. -/
def leftover (surplus : Option ℕ) (n : ℕ) : Bool :=
  match surplus with
  | none => false
  | some extra => n + extra != 0

lemma Elements.encode_cons {config : Config} {depth : ℕ} {kind : ContainerKind}
    (key : KeyOf kind) {item : Item} (rest : Elements kind) (h : item.Within config depth) :
    ∃ byte bs, (Elements.cons key item rest).encode = byte :: bs ∧ byte ≠ 0xff := by
  cases kind with
  | array =>
      obtain ⟨byte, bs, hbytes, hbreak, -⟩ := item.encode_cons h
      exact ⟨byte, bs ++ rest.encode, by rw [Elements.encode, hbytes]; rfl, hbreak⟩
  | object =>
      obtain ⟨byte, bs, hbytes, hbyte⟩ :=
        ByteString.encode_cons (by decide : 3 < 7) (Text.form key)
      have hkey : keyBytes key = byte :: bs := hbytes
      exact ⟨byte, bs ++ (item.encode ++ rest.encode), by rw [Elements.encode, hkey]; rfl,
        ne_of_major hbyte (by decide) (by decide)⟩

/-- The bytes of `n` elements; the first of them does not start with the break byte. -/
def Starts (n : ℕ) (bs : List UInt8) : Prop :=
  (n = 0 ∧ bs = []) ∨ (n ≠ 0 ∧ ∃ byte tail, bs = byte :: tail ∧ byte ≠ 0xff)

lemma Elements.starts {config : Config} {depth : ℕ} {kind : ContainerKind}
    (elements : Elements kind) (h : elements.Within config depth) :
    Starts elements.length elements.encode := by
  cases elements with
  | nil => exact .inl ⟨rfl, rfl⟩
  | cons key item rest => exact .inr ⟨Nat.succ_ne_zero _, Elements.encode_cons key rest h.1⟩

/-- A container is at its end after its last element, unless elements are left over. -/
lemma atEnd_starts (kind : ContainerKind) {n : ℕ} {bs : List UInt8} (hstarts : Starts n bs)
    (surplus : Option ℕ) {s : CborDecoder} (h : Next s (bs ++ closing surplus)) :
    atEnd ⟨kind, surplus.map (n + ·)⟩ s = (.ok (!(n != 0 || leftover surplus 0)), s) := by
  cases surplus with
  | some extra =>
      refine (atEnd_definite kind (n + extra) s).trans ?_
      have hbool : (n + extra == 0) = !(n != 0 || leftover (some extra) 0) := by
        rw [leftover, Bool.eq_iff_iff]
        simp
      rw [hbool]
  | none =>
      rcases hstarts with ⟨rfl, rfl⟩ | ⟨hne, byte, tail, rfl, hbreak⟩
      · exact atEnd_indefinite h
      · refine (atEnd_indefinite h).trans ?_
        rw [beq_false_of_ne hbreak, bne_iff_ne.mpr hne]
        rfl

/-! ## Reading a whole item -/

/-- The decoder after the item. -/
def Item.after (item : Item) (s : CborDecoder) : CborDecoder :=
  if item.charged then (s.advance item.encode.length).charge else s.advance item.encode.length

/-- How much the item adds to the surplus of the container that holds it. -/
def Item.left (item : Item) : ℕ := if item.charged then 0 else 1

lemma Elements.uncharged_cons {kind : ContainerKind} (key : KeyOf kind) (item : Item)
    (rest : Elements kind) :
    (Elements.cons key item rest).uncharged = rest.uncharged + item.left := rfl

/-- The decoder `n` bytes further on, with the stack `frames`. -/
def behind (s : CborDecoder) (n : ℕ) (frames : List Frame) : CborDecoder :=
  { s with cursor := s.cursor + n, frames := frames }

/-- Inside a container an item takes one of its elements, or adds to its surplus. -/
lemma Item.after_inside (item : Item) {s : CborDecoder} {outer : List Frame}
    {kind : ContainerKind} {surplus : Option ℕ} {n d : ℕ}
    (h : Inside s outer kind (surplus.map (n + 1 + ·)) d) :
    item.after s = behind s item.encode.length
      (outer ++ [⟨kind, (surplus.map (item.left + ·)).map (n + ·)⟩]) := by
  rw [after, left]
  by_cases hc : item.charged = true
  · rw [if_pos hc, if_pos hc, charge]
    have hframes : chargeTop (s.advance item.encode.length).frames =
        outer ++ [⟨kind, (surplus.map (0 + ·)).map (n + ·)⟩] := by
      change chargeTop s.frames = _
      rw [h.frames, chargeTop_append]
      rcases surplus with _ | extra
      · rfl
      · simp only [Option.map_some]
        rw [show n + 1 + extra - 1 = n + (0 + extra) by omega]
    rw [hframes]
    rfl
  · rw [if_neg hc, if_neg hc]
    have hframes : s.frames = outer ++ [⟨kind, (surplus.map (1 + ·)).map (n + ·)⟩] := by
      rw [h.frames]
      rcases surplus with _ | extra
      · rfl
      · simp only [Option.map_some]
        rw [Nat.add_assoc]
    rw [← hframes]
    rfl

lemma leftover_map (surplus : Option ℕ) (m n : ℕ) :
    leftover (surplus.map (m + ·)) n = leftover surplus (n + m) := by
  rcases surplus with _ | extra
  · rfl
  · simp [leftover, Nat.add_assoc]

lemma surplus_map_map (surplus : Option ℕ) (m n : ℕ) :
    (surplus.map (m + ·)).map (n + ·) = surplus.map (n + m + ·) := by
  rcases surplus with _ | extra
  · rfl
  · simp [Nat.add_assoc]

lemma closing_map (surplus : Option ℕ) (m : ℕ) :
    closing (surplus.map (m + ·)) = closing surplus := by
  rcases surplus with _ | extra <;> rfl

lemma surplus_map_ne_zero (surplus : Option ℕ) (n : ℕ) :
    surplus.map (n + 1 + ·) ≠ some 0 := by
  rcases surplus with _ | extra
  · simp
  · simp

/-- The decoder inside a container, after the elements. -/
def Elements.after {kind : ContainerKind} (elements : Elements kind) (outer : List Frame)
    (surplus : Option ℕ) {d : ℕ} (hd : d < maxDepth) (s : CborDecoder) : CborDecoder :=
  { s with
    cursor := s.cursor + elements.encode.length
    frames := outer ++ [⟨kind, surplus.map (elements.uncharged + ·)⟩]
    counts := s.counts.set d (s.counts[d] + elements.length) hd }

/-- The first element of a container, its key before and the separator after it.  The calls
`calls` read the element, whose bytes are `bs`, and add `left` to the surplus of the container;
`n` elements come behind it. -/
lemma run_element {kind : ContainerKind} (key : KeyOf kind) {s : CborDecoder}
    {outer : List Frame} {surplus : Option ℕ} {n left d : ℕ} {calls : List CborCall}
    {rets : List Answer} {bs rest : List UInt8} (hd : d < maxDepth)
    (hinside : Inside s outer kind (surplus.map (n + 1 + ·)) d) (hstarts : Starts n rest)
    (hnext : Next s (keyBytes key ++ (bs ++ (rest ++ closing surplus))))
    (hmax : s.counts[d] + 1 ≤ u64Max)
    (hlim : ∀ l, s.config.collectionLimit = some l → s.counts[d] + 1 ≤ l)
    (hitem : run (step narrow) calls (s.advance (keyBytes key).length) =
      (rets.map .ok, behind (s.advance (keyBytes key).length) bs.length
        (outer ++ [⟨kind, (surplus.map (left + ·)).map (n + ·)⟩]))) :
    ∃ t, t = { behind s ((keyBytes key).length + bs.length)
          (outer ++ [⟨kind, (surplus.map (left + ·)).map (n + ·)⟩]) with
        counts := s.counts.set d (s.counts[d] + 1) hd } ∧
      Inside t outer kind ((surplus.map (left + ·)).map (n + ·)) d ∧
      Next t (rest ++ closing (surplus.map (left + ·))) ∧ t.counts[d] = s.counts[d] + 1 ∧
      run (step narrow) (keyCalls key ++ (calls ++ [sepCall kind])) s =
        ((keyRets key ++ (rets ++
          [Answer.bool (n != 0 || leftover (surplus.map (left + ·)) 0)])).map .ok, t) := by
  have hkey := run_key narrow hinside (surplus_map_ne_zero _ _) key hnext.left
  have hrest := hnext.right.right
  rw [← closing_map surplus left, advance_advance] at hrest
  have hinside' : Inside (behind (s.advance (keyBytes key).length) bs.length
      (outer ++ [⟨kind, (surplus.map (left + ·)).map (n + ·)⟩])) outer kind
      ((surplus.map (left + ·)).map (n + ·)) d :=
    ⟨⟨hinside.noPending, hinside.counts_zero⟩, rfl, hinside.depth, hinside.lt⟩
  have hnext' : ∀ counts, Next { behind (s.advance (keyBytes key).length) bs.length
      (outer ++ [⟨kind, (surplus.map (left + ·)).map (n + ·)⟩]) with counts := counts }
      (rest ++ closing (surplus.map (left + ·))) := by
    intro counts
    rw [behind, advance, Nat.add_assoc]
    exact ⟨hrest.isPrefix, hrest.inside, hrest.admits⟩
  have hsep := step_sep narrow hd hinside' hmax hlim
    (fun counts => atEnd_starts _ hstarts _ (hnext' counts))
  rw [Bool.not_not] at hsep
  refine ⟨_, rfl, ?_, ?_, Vector.getElem_set_self hd, ?_⟩
  · refine ⟨⟨hinside.noPending, fun i hi hle => ?_⟩, rfl, hinside.depth, hd⟩
    have hle' : s.depth ≤ i := hle
    have hne : d ≠ i := by
      have := hinside.depth
      omega
    exact (Vector.getElem_set_ne hd hi hne).trans (hinside.counts_zero i hi hle')
  · exact ⟨hrest.isPrefix, hrest.inside, hrest.admits⟩
  · rw [run_append_of hkey, run_append_of hitem, run_cons_of hsep]
    simp [behind, advance, Nat.add_assoc]

/-! ### Scalars -/

lemma expectToken_of_read {α : Type} {s t : CborDecoder} {expected : String}
    {pick : Token → Option α} {token : Token} {a : α} (hl : s.lookahead = none)
    (hread : readToken s = (.ok token, t)) (hpick : pick token = some a) :
    expectToken expected pick s = (.ok a, t) := by
  have htake : takeToken s = (.ok token, t) := by rw [takeToken_none s hl, hread]
  rw [expectToken, bind_of_ok htake, hpick]
  rfl

lemma run_singleton {call : CborCall} {s t : CborDecoder} {answer : Answer}
    (h : step narrow call s = (.ok answer, t)) :
    run (step narrow) [call] s = ([answer].map .ok, t) := by
  rw [run_cons_of h]
  rfl

/-- `option_tag` on an item that is not a null reads nothing. -/
lemma step_optionTag_some {s : CborDecoder} {byte : UInt8} {bs : List UInt8}
    (hl : s.lookahead = none) (h : Next s (byte :: bs)) (hbyte : byte ≠ 0xf6) :
    step narrow .optionTag s = (.ok (.optionTag .some), s) := by
  have hnull : atNull s = (.ok false, s) := by
    rw [atNull, get_bind_run, hl]
    dsimp only
    rw [bind_of_ok (peekByte_next h), beq_false_of_ne hbyte]
    rfl
  have htag : optionTag s = (.ok .some, s) := by
    rw [optionTag, bind_of_ok hnull, if_neg (by simp), get_bind_run, hl, if_neg (by simp)]
    rfl
  exact map_of_ok htag

/-- `option_tag` on a null moves past it, and charges nothing. -/
lemma step_optionTag_none {s : CborDecoder} (hl : s.lookahead = none) (h : Next s [0xf6]) :
    step narrow .optionTag s = (.ok (.optionTag .none), s.advance 1) := by
  have hnull : atNull s = (.ok true, s) := by
    rw [atNull, get_bind_run, hl]
    dsimp only
    rw [bind_of_ok (peekByte_next h)]
    rfl
  have htag : optionTag s = (.ok .none, s.advance 1) := by
    rw [optionTag, bind_of_ok hnull, if_pos rfl, bind_of_ok (bumpCursor_next h)]
    rfl
  exact map_of_ok htag

/-- `bytes` on a byte string moves past it, and charges nothing. -/
lemma step_bytes {s : CborDecoder} {value : ByteString} (h : Next s (value.encode 2)) :
    step narrow .bytes s =
      (.ok (.bytes value.content), s.advance (value.encode 2).length) := by
  obtain ⟨byte, bs, hbytes, hmajor⟩ := value.encode_cons (by decide : 2 < 7)
  have hfirst : Next s (byte :: bs) := by
    rw [← hbytes]
    exact h
  obtain ⟨argument, t, hhead, hread⟩ := readBytes_next h
  have hbytes : bytes narrow s = (.ok value.content, s.advance (value.encode 2).length) := by
    rw [bytes, bind_of_ok (peekByte_next hfirst)]
    dsimp only
    rw [if_pos hmajor, bind_of_ok hhead]
    exact hread
  exact map_of_ok hbytes

/-! ### Containers -/

/-- The decoder after the head of a container. -/
def opened (kind : ContainerKind) (framing : Framing) (n : ℕ) (s : CborDecoder) : CborDecoder :=
  { s with
    cursor := s.cursor + (framing.openBytes kind n).length
    frames := chargeTop s.frames ++ [⟨kind, framing.surplus.map (n + ·)⟩]
    depth := s.depth + 1 }

lemma closeBytes_eq (framing : Framing) : framing.closeBytes = closing framing.surplus := by
  cases framing <;> rfl

lemma opened_inside (kind : ContainerKind) (framing : Framing) (n : ℕ) {s : CborDecoder}
    (hready : Ready s) (hdepth : s.depth < maxDepth) :
    Inside (opened kind framing n s) (chargeTop s.frames) kind (framing.surplus.map (n + ·))
      s.depth :=
  ⟨⟨hready.noPending, fun i hi hle => hready.counts_zero i hi (Nat.le_of_succ_le hle)⟩, rfl, rfl,
    hdepth⟩

lemma readToken_opened {s : CborDecoder} {kind : ContainerKind} {framing : Framing} {n : ℕ}
    (hfits : framing.Fits n) (hdepth : s.depth < maxDepth)
    (hlim : ∀ l, s.config.collectionLimit = some l → n ≤ l) (hroom : HasRoom s)
    (h : Next s (framing.openBytes kind n)) :
    readToken s = (.ok kind.token, opened kind framing n s) :=
  readToken_open hfits hdepth hlim hroom h

lemma Next.opened {kind : ContainerKind} {framing : Framing} {n : ℕ} {bs : List UInt8}
    {s : CborDecoder} (h : Next s (framing.openBytes kind n ++ (bs ++ framing.closeBytes))) :
    Next (opened kind framing n s) (bs ++ closing framing.surplus) := by
  rw [← closeBytes_eq]
  have := h.right
  exact ⟨this.isPrefix, this.inside, this.admits⟩

/-- The calls that open a container of `n` elements. -/
lemma run_open {kind : ContainerKind} {framing : Framing} {n d : ℕ} {bs : List UInt8}
    {s t : CborDecoder} {outer : List Frame} (hl : s.lookahead = none)
    (hopened : readToken s = (.ok kind.token, t))
    (hinside : Inside t outer kind (framing.surplus.map (n + ·)) d) (hstarts : Starts n bs)
    (hnext : Next t (bs ++ closing framing.surplus)) :
    run (step narrow) (openCalls kind n) s = ((openRets kind n).map .ok, t) := by
  have hend := atEnd_starts kind hstarts framing.surplus hnext
  have hsurplus : leftover framing.surplus 0 = false := by cases framing <;> rfl
  rw [hsurplus, Bool.or_false] at hend
  cases kind with
  | array =>
      have hbegin : step narrow (.required .beginArray) s = (.ok .unit, t) :=
        map_of_ok (expectToken_of_read hl hopened rfl)
      have hmore : step narrow (.required .arrayHasMore) t = (.ok (.bool (n != 0)), t) := by
        have := hasMore_inside hinside hend
        rw [Bool.not_not] at this
        exact map_of_ok this
      rw [openCalls, run_cons_of hbegin, run_cons_of hmore]
      rfl
  | object =>
      have hbegin : step narrow (.required .beginObject) s = (.ok .unit, t) :=
        map_of_ok (expectToken_of_read hl hopened rfl)
      rcases n with _ | n
      · have hkey : objectKey t = (.ok none, t) := by
          rw [objectKey, get_bind_run, hinside.noPending, hinside.last]
          dsimp only
          rw [if_neg (by simp), bind_of_ok hend]
          rfl
        have hstep : step narrow (.required .objectKey) t = (.ok (.key none), t) :=
          map_of_ok hkey
        rw [openCalls, run_cons_of hbegin, run_cons_of hstep]
        rfl
      · rw [openCalls, run_cons_of hbegin]
        rfl

/-- The decoder behind the `m` bytes of the `n` elements of a container, all of them charged. -/
def filled (kind : ContainerKind) (framing : Framing) (n m : ℕ) (s : CborDecoder)
    (hdepth : s.depth < maxDepth) : CborDecoder :=
  { behind (opened kind framing n s) m (chargeTop s.frames ++ [⟨kind, framing.surplus⟩]) with
    counts := s.counts.set s.depth (s.counts[s.depth] + n) hdepth }

/-- The call that closes a container none of whose elements are left over. -/
lemma step_close {kind : ContainerKind} {framing : Framing} {n m : ℕ} {s : CborDecoder}
    (hready : Ready s) (hdepth : s.depth < maxDepth)
    (hnext : Next (filled kind framing n m s hdepth) framing.closeBytes) :
    step narrow (closeCall kind) (filled kind framing n m s hdepth) =
      (.ok .unit, (s.advance ((framing.openBytes kind n).length +
        (m + framing.closeBytes.length))).charge) := by
  have hinside : Inside (filled kind framing n m s hdepth) (chargeTop s.frames) kind
      framing.surplus s.depth := by
    refine ⟨⟨hready.noPending, fun i hi hle => ?_⟩, rfl, rfl, hdepth⟩
    have hle' : s.depth + 1 ≤ i := hle
    exact (Vector.getElem_set_ne hdepth hi (by omega)).trans (hready.counts_zero i hi (by omega))
  have hend := endContainer_inside hdepth hinside hnext
  have hcounts : (s.counts.set s.depth (s.counts[s.depth] + n) hdepth).set s.depth 0 hdepth
      = s.counts := by
    rw [Vector.set_set, hready.set_counts hdepth]
  have hafter : ({ filled kind framing n m s hdepth with
        cursor := (filled kind framing n m s hdepth).cursor + framing.closeBytes.length
        frames := chargeTop s.frames, depth := s.depth
        counts := (filled kind framing n m s hdepth).counts.set s.depth 0 hdepth } :
          CborDecoder) =
      (s.advance ((framing.openBytes kind n).length +
        (m + framing.closeBytes.length))).charge := by
    simp only [filled, behind, opened, hcounts, charge, CborDecoder.advance, Nat.add_assoc]
  rw [hafter] at hend
  cases kind <;> exact map_of_ok hend

/-- The limits that the elements of a container keep, once the container is open. -/
lemma opened_limits {kind : ContainerKind} {framing : Framing} {n : ℕ} {bs : List UInt8}
    {s : CborDecoder} (hready : Ready s) (hdepth : s.depth < maxDepth)
    (hlim : ∀ l, s.config.collectionLimit = some l → n ≤ l) (hlen : n ≤ bs.length)
    (hnext : Next (opened kind framing n s) (bs ++ closing framing.surplus)) :
    (opened kind framing n s).counts[s.depth] + n ≤ u64Max ∧
      ∀ l, s.config.collectionLimit = some l →
        (opened kind framing n s).counts[s.depth] + n ≤ l := by
  have hcount : (opened kind framing n s).counts[s.depth] = 0 :=
    hready.counts_zero _ hdepth (Nat.le_refl _)
  have hinside := hnext.inside
  have hmax := s.input.length_le
  have hinput : (opened kind framing n s).input = s.input := rfl
  rw [hinput, List.length_append] at hinside
  rw [hcount, Nat.zero_add]
  exact ⟨by omega, hlim⟩

/-- The calls of the first element, and those of the rest. -/
lemma Elements.calls_cons {kind : ContainerKind} (key : KeyOf kind) (item : Item)
    (rest : Elements kind) :
    (Elements.cons key item rest).calls =
      keyCalls key ++ (item.calls ++ [sepCall kind]) ++ rest.calls := by
  simp [Elements.calls]

mutual

/-- An item whose elements are all charged is read, and the decoder moves past it. -/
theorem Item.run_of_charges (item : Item) (s : CborDecoder) (hready : Ready s)
    (hwithin : item.Within s.config s.depth) (hcharges : item.Charges) (hnext : Next s item.encode)
    (hroom : item.charged = true → HasRoom s) :
    run (step narrow) item.calls s = (item.rets.map .ok, item.after s) := by
  match item with
  | .null =>
      exact run_singleton narrow (map_of_ok (expectToken_of_read hready.noPending
        (readToken_null hnext (hroom rfl)) rfl))
  | .none => exact run_singleton narrow (step_optionTag_none narrow hready.noPending hnext)
  | .some item =>
      obtain ⟨byte, bs, hbytes, -, hnull⟩ := item.encode_cons hwithin.2
      have hfirst : Next s (byte :: bs) := by
        rw [← hbytes]
        exact hnext
      have hbyte : byte ≠ 0xf6 := by
        intro heq
        have := hnull heq
        rw [hwithin.1] at this
        cases this
      have hrun := item.run_of_charges s hready hwithin.2 hcharges hnext hroom
      rw [Item.calls, run_cons_of (step_optionTag_some narrow hready.noPending hfirst hbyte), hrun]
      rfl
  | .bool value =>
      have hbytes : Next s [if value then 0xf5 else 0xf4] := by
        cases value <;> exact hnext
      have hlen : (Item.bool value).encode.length = 1 := by cases value <;> rfl
      have hread := readToken_bool value hbytes (hroom rfl)
      have hstep : step narrow (.required .bool) s =
          (.ok (.bool value), (s.advance 1).charge) :=
        map_of_ok (expectToken_of_read hready.noPending hread rfl)
      rw [Item.calls, run_singleton narrow hstep, Item.after, hlen]
      rfl
  | .number value =>
      exact run_singleton narrow (map_of_ok (expectToken_of_read hready.noPending
        (readToken_number hnext (hroom rfl)) rfl))
  | .text value =>
      exact run_singleton narrow (map_of_ok (expectToken_of_read hready.noPending
        (readToken_text hnext (hroom rfl)) rfl))
  | .bytes value => exact run_singleton narrow (step_bytes narrow hnext)
  | .container kind framing elements =>
      obtain ⟨hdepth, hlim, hfits, helements⟩ := hwithin
      have hinside := opened_inside kind framing elements.length hready hdepth
      have hrest := Next.opened hnext
      have hopen := run_open narrow hready.noPending
        (readToken_opened hfits hdepth hlim (hroom rfl) hnext.left) hinside
        (elements.starts helements) hrest
      obtain ⟨hmax, hlimit⟩ := opened_limits hready hdepth hlim
        (elements.length_le_encode helements) hrest
      have hrun := elements.run_of_charges (opened kind framing elements.length s)
        (chargeTop s.frames) framing.surplus hdepth hinside helements hcharges.1 hrest
        hmax hlimit
      have hleft : framing.surplus.map (elements.uncharged + ·) = framing.surplus ∧
          leftover framing.surplus elements.uncharged = false := by
        cases framing with
        | definite width =>
            have : elements.uncharged = 0 := hcharges.2 nofun
            rw [this]
            exact ⟨rfl, rfl⟩
        | indefinite => exact ⟨rfl, rfl⟩
      have hfilled : elements.after (chargeTop s.frames) framing.surplus hdepth
          (opened kind framing elements.length s)
            = filled kind framing elements.length elements.encode.length s hdepth := by
        rw [Elements.after, hleft.1]
        rfl
      have hend : Next (filled kind framing elements.length elements.encode.length s hdepth)
          framing.closeBytes := by
        have := hnext.right.right
        exact ⟨this.isPrefix, this.inside, this.admits⟩
      have hclose := step_close narrow hready hdepth hend
      rw [hleft.2, hfilled] at hrun
      have hafter : (Item.container kind framing elements).after s =
          (s.advance (Item.container kind framing elements).encode.length).charge := if_pos rfl
      rw [Item.calls, run_append_of hopen, run_append_of hrun, run_singleton narrow hclose,
        Item.rets, hafter, Item.encode]
      simp

/-- So are the elements of a container; its separators tell whether any are left over. -/
theorem Elements.run_of_charges {kind : ContainerKind} (elements : Elements kind)
    (s : CborDecoder) (outer : List Frame) (surplus : Option ℕ) {d : ℕ} (hd : d < maxDepth)
    (hinside : Inside s outer kind (surplus.map (elements.length + ·)) d)
    (hwithin : elements.Within s.config (d + 1)) (hcharges : elements.Charges)
    (hnext : Next s (elements.encode ++ closing surplus))
    (hmax : s.counts[d] + elements.length ≤ u64Max)
    (hlim : ∀ l, s.config.collectionLimit = some l → s.counts[d] + elements.length ≤ l) :
    run (step narrow) elements.calls s =
      ((elements.rets (leftover surplus elements.uncharged)).map .ok,
        elements.after outer surplus hd s) := by
  match elements with
  | .nil =>
      rw [Elements.calls, run_nil, Elements.rets, Elements.after]
      have hframes : s.frames = outer ++ [⟨kind, surplus.map (0 + ·)⟩] := hinside.frames
      simp only [List.map_nil, Elements.encode, List.length_nil, Nat.add_zero, Elements.length,
        Vector.set_getElem_self, Elements.uncharged, ← hframes]
  | .cons key item rest =>
      have hlen : s.counts[d] + (rest.length + 1) ≤ u64Max := hmax
      have hready : Ready (s.advance (keyBytes key).length) :=
        (hinside.advance (keyBytes key).length).toReady
      have hbytes :
          Next s (keyBytes key ++ (item.encode ++ (rest.encode ++ closing surplus))) := by
        simpa [Elements.encode] using hnext
      have hdepth : (s.advance (keyBytes key).length).depth = d + 1 := hinside.depth
      have hitem := item.run_of_charges _ hready (by rw [hdepth]; exact hwithin.1) hcharges.1
        hbytes.right.left fun _ => (hinside.advance _).hasRoom (surplus_map_ne_zero _ _)
      rw [item.after_inside (hinside.advance _)] at hitem
      obtain ⟨t, ht, hinside', htnext, hcount, hrun⟩ := run_element narrow key hd hinside
        (rest.starts hwithin.2) hbytes (by omega)
        (fun l hl => by have := hlim l hl; rw [Elements.length] at this; omega) hitem
      have hconfig : t.config = s.config := by
        rw [ht]
        rfl
      have hrest := rest.run_of_charges t outer (surplus.map (item.left + ·)) hd hinside'
        (by rw [hconfig]; exact hwithin.2) hcharges.2 htnext (by rw [hcount]; omega)
        (fun l hl => by
          rw [hconfig] at hl
          have := hlim l hl
          rw [Elements.length] at this
          rw [hcount]
          omega)
      have hflag : (rest.length != 0 || leftover (surplus.map (item.left + ·)) 0) =
          (rest.length != 0 || leftover (surplus.map (item.left + ·)) rest.uncharged) := by
        by_cases hzero : rest.length = 0
        · have : rest.uncharged = 0 := by
            by_contra hne
            exact rest.length_ne_zero hne hzero
          rw [this]
        · rw [bne_iff_ne.mpr hzero, Bool.true_or, Bool.true_or]
      have hafter : rest.after outer (surplus.map (item.left + ·)) hd t =
          (Elements.cons key item rest).after outer surplus hd s := by
        rw [Elements.after, Elements.after, surplus_map_map, Elements.uncharged_cons, hcount, ht]
        simp only [behind, Elements.encode, Elements.length, List.length_append, Vector.set_set,
          Nat.add_assoc, Nat.add_comm 1]
      rw [Elements.calls_cons, run_append_of hrun, hrest, hafter, Elements.rets,
        Elements.uncharged_cons, ← leftover_map, hflag]
      simp

end

mutual

/-- An item with a definite container that directly holds an element that is not charged
gets other answers. -/
theorem Item.run_ne_of_not_charges (item : Item) (s : CborDecoder) (hready : Ready s)
    (hwithin : item.Within s.config s.depth) (hcharges : ¬ item.Charges)
    (hnext : Next s item.encode) (hroom : item.charged = true → HasRoom s) :
    (run (step narrow) item.calls s).1 ≠ item.rets.map .ok := by
  match item with
  | .null => exact absurd trivial hcharges
  | .none => exact absurd trivial hcharges
  | .some item =>
      obtain ⟨byte, bs, hbytes, -, hnull⟩ := item.encode_cons hwithin.2
      have hfirst : Next s (byte :: bs) := by
        rw [← hbytes]
        exact hnext
      have hbyte : byte ≠ 0xf6 := by
        intro heq
        have := hnull heq
        rw [hwithin.1] at this
        cases this
      have hne := item.run_ne_of_not_charges s hready hwithin.2 hcharges hnext hroom
      rw [Item.calls, run_cons_of (step_optionTag_some narrow hready.noPending hfirst hbyte),
        Item.rets]
      intro heq
      exact hne (List.cons.inj heq).2
  | .bool _ => exact absurd trivial hcharges
  | .number _ => exact absurd trivial hcharges
  | .text _ => exact absurd trivial hcharges
  | .bytes _ => exact absurd trivial hcharges
  | .container kind framing elements =>
      obtain ⟨hdepth, hlim, hfits, hall⟩ := hwithin
      have hinside := opened_inside kind framing elements.length hready hdepth
      have hrest := Next.opened hnext
      have hopen := run_open narrow hready.noPending
        (readToken_opened hfits hdepth hlim (hroom rfl) hnext.left) hinside
        (elements.starts hall) hrest
      obtain ⟨hmax, hlimit⟩ := opened_limits hready hdepth hlim
        (elements.length_le_encode hall) hrest
      rw [Item.calls, run_append_of hopen, Item.rets, List.map_append]
      intro heq
      have helements := List.append_cancel_left heq
      rw [List.map_append] at helements
      have hanswers := run_append_left helements
        (by rw [List.length_map, elements.length_rets])
      by_cases hcharged : elements.Charges
      · have hrun := elements.run_of_charges narrow _ (chargeTop s.frames)
          framing.surplus hdepth hinside hall hcharged hrest hmax hlimit
        have hdefinite : leftover framing.surplus elements.uncharged = true ∧
            elements.uncharged ≠ 0 := by
          cases framing with
          | definite width =>
              have hne : elements.uncharged ≠ 0 := fun h => hcharges ⟨hcharged, fun _ => h⟩
              exact ⟨bne_iff_ne.mpr hne, hne⟩
          | indefinite => exact absurd ⟨hcharged, fun h => absurd rfl h⟩ hcharges
        rw [hrun, hdefinite.1] at hanswers
        refine elements.rets_ne (elements.length_ne_zero hdefinite.2) ?_
        exact (List.map_inj_right (fun _ _ h => by cases h; rfl)).mp hanswers
      · exact elements.run_ne_of_not_charges _ (chargeTop s.frames) framing.surplus hdepth
          hinside hall hcharged hrest hmax hlimit false hanswers

theorem Elements.run_ne_of_not_charges {kind : ContainerKind} (elements : Elements kind)
    (s : CborDecoder) (outer : List Frame) (surplus : Option ℕ) {d : ℕ} (hd : d < maxDepth)
    (hinside : Inside s outer kind (surplus.map (elements.length + ·)) d)
    (hwithin : elements.Within s.config (d + 1)) (hcharges : ¬ elements.Charges)
    (hnext : Next s (elements.encode ++ closing surplus))
    (hmax : s.counts[d] + elements.length ≤ u64Max)
    (hlim : ∀ l, s.config.collectionLimit = some l → s.counts[d] + elements.length ≤ l)
    (last : Bool) :
    (run (step narrow) elements.calls s).1 ≠ (elements.rets last).map .ok := by
  match elements with
  | .nil => exact absurd trivial hcharges
  | .cons key item rest =>
      have hlen : s.counts[d] + (rest.length + 1) ≤ u64Max := hmax
      have hready : Ready (s.advance (keyBytes key).length) :=
        (hinside.advance (keyBytes key).length).toReady
      have hbytes : Next s (keyBytes key ++ (item.encode ++ (rest.encode ++ closing surplus))) := by
        simpa [Elements.encode] using hnext
      have hitemWithin : item.Within (s.advance (keyBytes key).length).config
          (s.advance (keyBytes key).length).depth := by
        have hdepth : (s.advance (keyBytes key).length).depth = d + 1 := hinside.depth
        rw [hdepth]
        exact hwithin.1
      have hroom : item.charged = true → HasRoom (s.advance (keyBytes key).length) :=
        fun _ => (hinside.advance _).hasRoom (surplus_map_ne_zero _ _)
      by_cases hitem : item.Charges
      · have hrunItem := item.run_of_charges narrow _ hready hitemWithin hitem
          hbytes.right.left hroom
        rw [item.after_inside (hinside.advance _)] at hrunItem
        obtain ⟨t, ht, hinside', htnext, hcount, hrun⟩ := run_element narrow key hd hinside
          (rest.starts hwithin.2) hbytes (by omega)
          (fun l hl => by have := hlim l hl; rw [Elements.length] at this; omega) hrunItem
        have hconfig : t.config = s.config := by
          rw [ht]
          rfl
        have hne := rest.run_ne_of_not_charges t outer (surplus.map (item.left + ·)) hd hinside'
          (by rw [hconfig]; exact hwithin.2) (fun h => hcharges ⟨hitem, h⟩) htnext
          (by rw [hcount]; omega)
          (fun l hl => by
            rw [hconfig] at hl
            have := hlim l hl
            rw [Elements.length] at this
            rw [hcount]
            omega) last
        rw [Elements.calls_cons, run_append_of hrun]
        intro heq
        have hsplit : (Elements.rets last (.cons key item rest)).map Outcome.ok =
            (keyRets key ++ (item.rets ++ [Answer.bool (rest.length != 0 || last)])).map
              (Outcome.ok (ε := NextjsonError)) ++ (rest.rets last).map .ok := by
          simp [Elements.rets]
        rw [hsplit] at heq
        exact hne (List.append_inj heq (by simp)).2
      · have hkey := run_key narrow hinside (surplus_map_ne_zero _ _) key hbytes.left
        have hne := item.run_ne_of_not_charges _ hready hitemWithin hitem
          hbytes.right.left hroom
        rw [Elements.calls, run_append_of hkey, Elements.rets, List.map_append]
        intro heq
        have hitems := List.append_cancel_left heq
        rw [List.map_append] at hitems
        exact hne (run_append_left hitems (by rw [List.length_map, item.length_rets]))

end

/-! ## An item and its twin -/

/-- The item in `input` reads as its twin of indefinite length in `twin` does: the calls get
the same answers, which are those of the item, and the decoder moves past the whole item. -/
structure ReadsAsTwin (config : Config) (item : Item) (input twin : Input) : Prop where
  answers : (run (step narrow) item.calls (new input config)).1 =
    (run (step narrow) item.calls (new twin config)).1
  values : (run (step narrow) item.calls (new input config)).1 = item.rets.map .ok
  consumed : (run (step narrow) item.calls (new input config)).2.cursor = item.encode.length
  closed : (run (step narrow) item.calls (new input config)).2.frames = []

lemma ready_new (input : Input) (config : Config) : Ready (new input config) :=
  ⟨rfl, fun _ hi _ => Vector.getElem_replicate hi⟩

lemma next_new {input : Input} {config : Config} {bs : List UInt8} (h : bs <+: input.bytes)
    (hlimit : ∀ l, config.limit = some l → bs.length ≤ l) : Next (new input config) bs :=
  ⟨h, (Nat.zero_add _).trans_le h.length_le, fun l hl => (Nat.zero_add _).trans_le (hlimit l hl)⟩

lemma hasRoom_new (input : Input) (config : Config) : HasRoom (new input config) :=
  fun _ hlast => by cases hlast

lemma item_after_new (item : Item) (input : Input) (config : Config) :
    (item.after (new input config)).cursor = item.encode.length ∧
      (item.after (new input config)).frames = [] := by
  rw [Item.after]
  by_cases hc : item.charged = true
  · rw [if_pos hc]
    exact ⟨Nat.zero_add _, rfl⟩
  · rw [if_neg hc]
    exact ⟨Nat.zero_add _, rfl⟩

/-- A decoder that starts at an item whose elements are all charged reads it. -/
lemma run_item_new {item : Item} {input : Input} {config : Config}
    (hinput : item.encode <+: input.bytes) (hwithin : item.Within config 0)
    (hlimit : ∀ l, config.limit = some l → item.encode.length ≤ l) (hcharges : item.Charges) :
    run (step narrow) item.calls (new input config) =
      (item.rets.map .ok, item.after (new input config)) :=
  item.run_of_charges narrow _ (ready_new input config) hwithin hcharges
    (next_new hinput hlimit) fun _ => hasRoom_new input config

/-- **Length-form independence.** An item reads as its twin of indefinite length does if and
only if no definite container in it directly holds a null read by `option_tag` or a byte
string read by `bytes`. -/
theorem readsAsTwin_iff (config : Config) (item : Item) (input twin : Input)
    (hinput : item.encode <+: input.bytes) (htwin : item.indefinite.encode <+: twin.bytes)
    (hwithin : item.Within config 0)
    (hlimit : ∀ l, config.limit = some l →
      item.encode.length ≤ l ∧ item.indefinite.encode.length ≤ l) :
    ReadsAsTwin narrow config item input twin ↔ item.Charges := by
  have hrunTwin := run_item_new narrow htwin hwithin.indefinite (fun l hl => (hlimit l hl).2)
    item.charges_indefinite
  rw [item.calls_indefinite, item.rets_indefinite] at hrunTwin
  constructor
  · intro h
    by_contra hcharges
    exact item.run_ne_of_not_charges narrow _ (ready_new input config) hwithin hcharges
      (next_new hinput fun l hl => (hlimit l hl).1) (fun _ => hasRoom_new input config) h.values
  · intro hcharges
    have hrun := run_item_new narrow hinput hwithin (fun l hl => (hlimit l hl).1) hcharges
    have hafter := item_after_new item input config
    refine ⟨?_, ?_, ?_, ?_⟩
    · rw [hrun, hrunTwin]
    · rw [hrun]
    · rw [hrun]
      exact hafter.1
    · rw [hrun]
      exact hafter.2

/-- The array `[1, [true, null]]` of definite framing, whose null is read as a unit. -/
def definiteUnits : Item :=
  .container .array (.definite .immediate)
    (.cons () (.number (.unsigned ⟨1, .immediate, by decide⟩))
      (.cons () (.container .array (.definite .one)
        (.cons () (.bool true) (.cons () .null .nil))) .nil))

theorem readsAsTwin_definiteUnits :
    ReadsAsTwin narrowUnsigned .standard definiteUnits
      ⟨[0x82, 0x01, 0x98, 0x02, 0xf5, 0xf6], by decide⟩
      ⟨[0x9f, 0x01, 0x9f, 0xf5, 0xf6, 0xff, 0xff], by decide⟩ := by
  have hlimit : ∀ l, Config.standard.limit = some l →
      definiteUnits.encode.length ≤ l ∧ definiteUnits.indefinite.encode.length ≤ l := by
    intro l hl
    cases hl
    decide
  have hcollection : ∀ l, Config.standard.collectionLimit = some l → 2 ≤ l := by
    intro l hl
    cases hl
    decide
  refine (readsAsTwin_iff narrowUnsigned .standard definiteUnits _ _ (by decide) (by decide) ?_
    hlimit).mpr ?_
  · exact ⟨by decide, hcollection, by decide, trivial,
      ⟨by decide, hcollection, by decide, trivial, trivial, trivial⟩, trivial⟩
  · exact ⟨⟨trivial, ⟨⟨trivial, trivial, trivial⟩, fun _ => rfl⟩, trivial⟩, fun _ => rfl⟩

/-- The definite array `[null]` read by `option_tag` does not end after its element. -/
theorem readsAsTwin_definiteNone :
    ¬ ReadsAsTwin narrowUnsigned .standard
      (.container .array (.definite .immediate) (.cons () .none .nil))
      ⟨[0x81, 0xf6], by decide⟩ ⟨[0x9f, 0xf6, 0xff], by decide⟩ :=
  fun h => absurd h.answers (by decide)

end RustBinary.Cbor
