import RustBinary.Cbor.LengthForm
import RustBinary.Cbor.Progress

/-!
# Data items with semantic tags

The data items that `skip_value` meets: the items of the supported model, read as plain values,
with the semantic tags that `read_token` passes over.  A byte string has no tags, as `bytes`
looks for its head at once.

* `Datum.encode`: the bytes of the item;
* `Datum.calls` and `Datum.rets`: the calls that read it through, and their answers;
* `Datum.run_of_byteFree`: reading an item without byte strings moves past it and charges one
  element to the container that holds it.
-/

namespace RustBinary.Cbor

open Lib Lib.Act CborDecoder

/-- A tag that annotates the value after it: any tag but the two of the bignums. -/
structure Tag where
  number : Argument
  annotates : number.value ≠ 2 ∧ number.value ≠ 3

def Tag.encode (tag : Tag) : List UInt8 := head 6 tag.number.width tag.number.value

def tagBytes (tags : List Tag) : List UInt8 := tags.flatMap Tag.encode

/-- A value of one token. -/
inductive Atom where
  | null
  | bool (value : Bool)
  | number (value : Numeral)
  | text (value : Text)

namespace Atom

def encode : Atom → List UInt8
  | null => [0xf6]
  | bool value => [if value then 0xf5 else 0xf4]
  | number value => value.encode
  | text value => value.form.encode 3

def token : Atom → Token
  | null => .null
  | bool value => .bool value
  | number value => .number value.value
  | text value => .str value.value

/-- The call that reads the value. -/
def call : Atom → CborCall
  | null => .required .unit
  | bool _ => .required .bool
  | number _ => .required .number
  | text _ => .required .string

def ret : Atom → Answer
  | null => .unit
  | bool value => .bool value
  | number value => .number value.value
  | text value => .string value.value

end Atom

mutual

inductive Datum where
  | atom (tags : List Tag) (value : Atom)
  | bytes (value : ByteString)
  | container (tags : List Tag) (kind : ContainerKind) (framing : Framing) (members : Members kind)

inductive Members : ContainerKind → Type where
  | nil {kind : ContainerKind} : Members kind
  | cons {kind : ContainerKind} (key : KeyOf kind) (datum : Datum) (rest : Members kind) :
      Members kind

end

def Members.length {kind : ContainerKind} : Members kind → ℕ
  | .nil => 0
  | .cons _ _ rest => rest.length + 1

mutual

def Datum.encode : Datum → List UInt8
  | .atom tags value => tagBytes tags ++ value.encode
  | .bytes value => value.encode 2
  | .container tags kind framing members =>
      tagBytes tags ++
        (framing.openBytes kind members.length ++ (members.encode ++ framing.closeBytes))

def Members.encode {kind : ContainerKind} : Members kind → List UInt8
  | .nil => []
  | .cons key datum rest => keyBytes key ++ (datum.encode ++ rest.encode)

end

mutual

def Datum.calls : Datum → List CborCall
  | .atom _ value => [value.call]
  | .bytes _ => [.bytes]
  | .container _ kind _ members =>
      openCalls kind members.length ++ (members.calls ++ [closeCall kind])

def Members.calls {kind : ContainerKind} : Members kind → List CborCall
  | .nil => []
  | .cons key datum rest => keyCalls key ++ (datum.calls ++ [sepCall kind]) ++ rest.calls

end

mutual

def Datum.rets : Datum → List Answer
  | .atom _ value => [value.ret]
  | .bytes value => [.bytes value.content]
  | .container _ kind _ members =>
      openRets kind members.length ++ (members.rets ++ [.unit])

def Members.rets {kind : ContainerKind} : Members kind → List Answer
  | .nil => []
  | .cons key datum rest =>
      keyRets key ++ (datum.rets ++ [.bool (rest.length != 0)]) ++ rest.rets

end

mutual

/-- At depth `depth` the item is within the limits of `config`, and the lengths of its definite
containers can be written. -/
def Datum.Within (config : Config) (depth : ℕ) : Datum → Prop
  | .container _ _ framing members =>
      depth < maxDepth ∧ (∀ l, config.collectionLimit = some l → members.length ≤ l) ∧
        framing.Fits members.length ∧ members.Within config (depth + 1)
  | _ => True

def Members.Within (config : Config) (depth : ℕ) {kind : ContainerKind} : Members kind → Prop
  | .nil => True
  | .cons _ datum rest => datum.Within config depth ∧ rest.Within config depth

end

mutual

/-- No byte string occurs in the item. -/
def Datum.ByteFree : Datum → Prop
  | .atom _ _ => True
  | .bytes _ => False
  | .container _ _ _ members => members.ByteFree

def Members.ByteFree {kind : ContainerKind} : Members kind → Prop
  | .nil => True
  | .cons _ datum rest => datum.ByteFree ∧ rest.ByteFree

end

/-! ## First bytes -/

lemma tagBytes_append (tags : List Tag) {bs : List UInt8}
    (h : ∃ byte tail, bs = byte :: tail ∧ byte ≠ 0xff) :
    ∃ byte tail, tagBytes tags ++ bs = byte :: tail ∧ byte ≠ 0xff := by
  cases tags with
  | nil => exact h
  | cons tag tags =>
      obtain ⟨byte, tail, hhead, hbyte⟩ := head_cons (by decide : 6 < 7) tag.number.fits
      refine ⟨byte, tail ++ (tagBytes tags ++ bs), ?_, ne_of_major hbyte (by decide) (by decide)⟩
      rw [tagBytes, List.flatMap_cons, Tag.encode, hhead, List.append_assoc]
      rfl

lemma Atom.encode_cons (value : Atom) :
    ∃ byte tail, value.encode = byte :: tail ∧ byte ≠ 0xff := by
  cases value with
  | null => exact ⟨_, _, rfl, by decide⟩
  | bool value => exact ⟨_, _, rfl, by cases value <;> decide⟩
  | number value =>
      obtain ⟨byte, tail, hbytes, hbyte, -⟩ := value.encode_cons
      exact ⟨byte, tail, hbytes, hbyte⟩
  | text value =>
      obtain ⟨byte, tail, hbytes, hbyte⟩ := value.form.encode_cons (by decide : 3 < 7)
      exact ⟨byte, tail, hbytes, ne_of_major hbyte (by decide) (by decide)⟩

/-- No item starts with the break byte. -/
lemma Datum.encode_cons {config : Config} {depth : ℕ} : (datum : Datum) →
    datum.Within config depth → ∃ byte tail, datum.encode = byte :: tail ∧ byte ≠ 0xff
  | .atom tags value, _ => tagBytes_append tags value.encode_cons
  | .bytes value, _ => by
      obtain ⟨byte, tail, hbytes, hbyte⟩ := value.encode_cons (by decide : 2 < 7)
      exact ⟨byte, tail, hbytes, ne_of_major hbyte (by decide) (by decide)⟩
  | .container tags kind framing members, h => by
      obtain ⟨byte, tail, hbytes, hbyte⟩ := framing.openBytes_cons kind h.2.2.1
      refine tagBytes_append tags ⟨byte, tail ++ (members.encode ++ framing.closeBytes), ?_, ?_⟩
      · rw [hbytes]
        rfl
      · exact ne_of_major hbyte kind.major_lt (by decide)

lemma Members.starts {config : Config} {depth : ℕ} {kind : ContainerKind} :
    (members : Members kind) → members.Within config depth →
      Starts members.length members.encode
  | .nil, _ => .inl ⟨rfl, rfl⟩
  | .cons key datum rest, h => by
      refine .inr ⟨Nat.succ_ne_zero _, ?_⟩
      cases kind with
      | array =>
          obtain ⟨byte, tail, hbytes, hbyte⟩ := datum.encode_cons h.1
          exact ⟨byte, tail ++ rest.encode, by rw [Members.encode, hbytes]; rfl, hbyte⟩
      | object =>
          obtain ⟨byte, tail, hbytes, hbyte⟩ := (Text.form key).encode_cons (by decide : 3 < 7)
          have hkey : keyBytes key = byte :: tail := hbytes
          exact ⟨byte, tail ++ (datum.encode ++ rest.encode), by rw [Members.encode, hkey]; rfl,
            ne_of_major hbyte (by decide) (by decide)⟩

lemma Members.length_le_encode {config : Config} {depth : ℕ} {kind : ContainerKind} :
    (members : Members kind) → members.Within config depth →
      members.length ≤ members.encode.length
  | .nil, _ => Nat.le_refl _
  | .cons key datum rest, h => by
      have hrest := rest.length_le_encode h.2
      obtain ⟨byte, tail, hbytes, -⟩ := datum.encode_cons h.1
      rw [Members.encode, hbytes]
      simp only [Members.length, List.length_append, List.length_cons]
      omega

/-! ## The first token -/

variable {s : CborDecoder}

lemma tokenRound_tag {tag : Tag} (h : Next s tag.encode) :
    tokenRound () s = (.ok (.inl ()), s.advance tag.encode.length) := by
  rw [tokenRound, bind_of_ok (readHead_head (by decide) tag.number.fits h)]
  dsimp only
  rw [tokenOf, HeadArg.getValue, pure_bind, if_neg tag.annotates.1, if_neg tag.annotates.2]
  rfl

lemma visits_tags (tags : List Tag) {bs : List UInt8} (h : Next s (tagBytes tags ++ bs)) :
    Visits tokenRound () s () (s.advance (tagBytes tags).length) := by
  induction tags generalizing s with
  | nil => exact .refl () s
  | cons tag tags ih =>
      have hbytes : tagBytes (tag :: tags) = tag.encode ++ tagBytes tags := List.flatMap_cons
      rw [hbytes, List.append_assoc] at h
      rw [hbytes, List.length_append, ← advance_advance]
      exact .step (tokenRound_tag h.left) (ih h.right)

/-- Tags are passed over. -/
lemma readToken_tags (tags : List Tag) {bs : List UInt8} (h : Next s (tagBytes tags ++ bs)) :
    readToken s = readToken (s.advance (tagBytes tags).length) := by
  have hrounds := iterate_eq_of_visits (fun _ t => t.rest)
    (fun u t u' t' _ hround => advances_tokenRound u t _ t' hround) (visits_tags tags h)
    (Nat.lt_succ_of_le (Nat.sub_le s.input.bytes.length s.cursor))
    (Nat.lt_succ_of_le (Nat.sub_le s.input.bytes.length _))
  exact hrounds

lemma Atom.readToken_eq (value : Atom) (h : Next s value.encode) (hroom : HasRoom s) :
    readToken s = (.ok value.token, (s.advance value.encode.length).charge) := by
  cases value with
  | null => exact readToken_null h hroom
  | bool value => exact readToken_bool value h hroom
  | number value => exact readToken_number h hroom
  | text value => exact readToken_text h hroom

/-- The decoder after an item that is charged to the container that holds it. -/
def Datum.after (datum : Datum) (s : CborDecoder) : CborDecoder :=
  (s.advance datum.encode.length).charge

lemma readToken_atom {tags : List Tag} {value : Atom}
    (h : Next s (Datum.atom tags value).encode) (hroom : HasRoom s) :
    readToken s = (.ok value.token, (Datum.atom tags value).after s) := by
  rw [readToken_tags tags h, value.readToken_eq h.right hroom, advance_advance,
    ← List.length_append]
  rfl

lemma readToken_container {tags : List Tag} {kind : ContainerKind} {framing : Framing}
    {members : Members kind}
    (hwithin : (Datum.container tags kind framing members).Within s.config s.depth)
    (h : Next s (Datum.container tags kind framing members).encode) (hroom : HasRoom s) :
    readToken s = (.ok kind.token,
      opened kind framing members.length (s.advance (tagBytes tags).length)) := by
  rw [readToken_tags tags h]
  exact readToken_opened hwithin.2.2.1 hwithin.1 hwithin.2.1 hroom h.right.left

/-! ## Reading an item through -/

/-- The decoder inside a container, after its members. -/
def Members.after {kind : ContainerKind} (members : Members kind) (outer : List Frame)
    (framing : Framing) {d : ℕ} (hd : d < maxDepth) (s : CborDecoder) : CborDecoder :=
  { behind s members.encode.length (outer ++ [⟨kind, framing.surplus⟩]) with
    counts := s.counts.set d (s.counts[d] + members.length) hd }

/-- Inside a container an item takes one of its elements. -/
lemma Datum.after_inside (datum : Datum) {outer : List Frame} {kind : ContainerKind}
    {surplus : Option ℕ} {n d : ℕ} (h : Inside s outer kind (surplus.map (n + 1 + ·)) d) :
    datum.after s =
      behind s datum.encode.length (outer ++ [⟨kind, surplus.map (n + ·)⟩]) := by
  have hframes : chargeTop s.frames = outer ++ [⟨kind, surplus.map (n + ·)⟩] := by
    rw [h.frames, chargeTop_append]
    rcases surplus with _ | extra
    · rfl
    · simp only [Option.map_some]
      rw [show n + 1 + extra - 1 = n + extra by omega]
  rw [behind, ← hframes]
  rfl

variable (narrow : Number → Option UInt8)

lemma Atom.step_call (value : Atom) {t : CborDecoder} (hl : s.lookahead = none)
    (hread : readToken s = (.ok value.token, t)) :
    step narrow value.call s = (.ok value.ret, t) := by
  cases value with
  | null => exact map_of_ok (expectToken_of_read hl hread rfl)
  | bool value => exact map_of_ok (expectToken_of_read hl hread rfl)
  | number value => exact map_of_ok (expectToken_of_read hl hread rfl)
  | text value => exact map_of_ok (expectToken_of_read hl hread rfl)

mutual

/-- Reading an item without byte strings moves past it. -/
theorem Datum.run_of_byteFree (datum : Datum) (s : CborDecoder) (hready : Ready s)
    (hwithin : datum.Within s.config s.depth) (hfree : datum.ByteFree)
    (hnext : Next s datum.encode) (hroom : HasRoom s) :
    run (step narrow) datum.calls s = (datum.rets.map .ok, datum.after s) := by
  match datum with
  | .atom tags value =>
      exact run_singleton narrow (value.step_call narrow hready.noPending
        (readToken_atom hnext hroom))
  | .bytes value => exact absurd hfree id
  | .container tags kind framing members =>
      have hread := readToken_container hwithin hnext hroom
      obtain ⟨hdepth, hlim, hfits, hmembers⟩ := hwithin
      have hready' : Ready (s.advance (tagBytes tags).length) :=
        ⟨hready.noPending, hready.counts_zero⟩
      have hinside := opened_inside kind framing members.length hready' hdepth
      have hrest := Next.opened hnext.right
      have hopen := run_open narrow hready.noPending hread hinside (members.starts hmembers) hrest
      obtain ⟨hmax, hlimit⟩ := opened_limits hready' hdepth hlim
        (members.length_le_encode hmembers) hrest
      have hrun := members.run_of_byteFree _ (chargeTop s.frames) framing hdepth hinside hmembers
        hfree hrest hmax hlimit
      have hend : Next (filled kind framing members.length members.encode.length
          (s.advance (tagBytes tags).length) hdepth) framing.closeBytes := by
        have := hnext.right.right.right
        exact ⟨this.isPrefix, this.inside, this.admits⟩
      have hclose := step_close narrow hready' hdepth hend
      have hfilled : members.after (chargeTop s.frames) framing hdepth
          (opened kind framing members.length (s.advance (tagBytes tags).length)) =
            filled kind framing members.length members.encode.length
              (s.advance (tagBytes tags).length) hdepth := rfl
      rw [hfilled] at hrun
      rw [advance_advance] at hclose
      rw [Datum.calls, run_append_of hopen, run_append_of hrun, run_singleton narrow hclose,
        Datum.rets, Datum.after, Datum.encode]
      simp

/-- So does reading the members of a container. -/
theorem Members.run_of_byteFree {kind : ContainerKind} (members : Members kind)
    (s : CborDecoder) (outer : List Frame) (framing : Framing) {d : ℕ} (hd : d < maxDepth)
    (hinside : Inside s outer kind (framing.surplus.map (members.length + ·)) d)
    (hwithin : members.Within s.config (d + 1)) (hfree : members.ByteFree)
    (hnext : Next s (members.encode ++ closing framing.surplus))
    (hmax : s.counts[d] + members.length ≤ u64Max)
    (hlim : ∀ l, s.config.collectionLimit = some l → s.counts[d] + members.length ≤ l) :
    run (step narrow) members.calls s =
      (members.rets.map .ok, members.after outer framing hd s) := by
  match members with
  | .nil =>
      have hsurplus : framing.surplus.map (0 + ·) = framing.surplus := by cases framing <;> rfl
      have hframes : s.frames = outer ++ [⟨kind, framing.surplus⟩] := by
        rw [← hsurplus]
        exact hinside.frames
      rw [Members.calls, run_nil, Members.after, behind]
      simp only [List.map_nil, Members.rets, Members.encode, Members.length, List.length_nil,
        Nat.add_zero, Vector.set_getElem_self, ← hframes]
  | .cons key datum rest =>
      have hlen : s.counts[d] + (rest.length + 1) ≤ u64Max := hmax
      have hbytes : Next s (keyBytes key ++
          (datum.encode ++ (rest.encode ++ closing framing.surplus))) := by
        simpa [Members.encode] using hnext
      have hready : Ready (s.advance (keyBytes key).length) :=
        (hinside.advance (keyBytes key).length).toReady
      have hdepth : (s.advance (keyBytes key).length).depth = d + 1 := hinside.depth
      have hdatum := datum.run_of_byteFree _ hready (by rw [hdepth]; exact hwithin.1) hfree.1
        hbytes.right.left ((hinside.advance _).hasRoom (surplus_map_ne_zero _ _))
      have hzero : framing.surplus.map (0 + ·) = framing.surplus := by cases framing <;> rfl
      have hbehind : datum.after (s.advance (keyBytes key).length) =
          behind (s.advance (keyBytes key).length) datum.encode.length
            (outer ++ [⟨kind, (framing.surplus.map (0 + ·)).map (rest.length + ·)⟩]) := by
        rw [hzero]
        exact datum.after_inside (hinside.advance _)
      rw [hbehind] at hdatum
      obtain ⟨t, ht, hinside', htnext, hcount, hrun⟩ := run_element narrow key hd hinside
        (rest.starts hwithin.2) hbytes (by omega)
        (fun l hl => by have := hlim l hl; rw [Members.length] at this; omega) hdatum
      rw [hzero] at ht hinside' htnext hrun
      have hconfig : t.config = s.config := by
        rw [ht]
        rfl
      have hrest := rest.run_of_byteFree t outer framing hd hinside'
        (by rw [hconfig]; exact hwithin.2) hfree.2 htnext (by rw [hcount]; omega)
        (fun l hl => by
          rw [hconfig] at hl
          have := hlim l hl
          rw [Members.length] at this
          rw [hcount]
          omega)
      have hafter : rest.after outer framing hd t =
          (Members.cons key datum rest).after outer framing hd s := by
        rw [Members.after, Members.after, hcount, ht]
        simp only [behind, Members.encode, Members.length, List.length_append, Vector.set_set,
          Nat.add_assoc, Nat.add_comm 1]
      have hlast : leftover framing.surplus 0 = false := by cases framing <;> rfl
      rw [hlast, Bool.or_false] at hrun
      rw [Members.calls, run_append_of hrun, hrest, hafter, Members.rets]
      simp

end

end RustBinary.Cbor
