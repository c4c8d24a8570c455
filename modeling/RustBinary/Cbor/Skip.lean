import Mathlib.Algebra.Order.BigOperators.Group.List
import RustBinary.Cbor.Datum
import RustBinary.Cbor.Panic

/-!
# Skipping an item

`skip_value` takes plain tokens until it is back at the depth it started from.  The head of a
definite object counts pairs, though, while a key and a value are two tokens: the object is left
after half of its tokens, and the other half is taken for the items behind it.  A container of
indefinite length around it takes them in; nothing else does.

* `Portion`: what one run of the loop takes of an item.  It fails, or goes past the item but for
  a list of smaller items;
* `skipsAsRead_iff`: `skip_value` leaves the decoder as reading the item through does if and only
  if there is no byte string in the item, every object that is not empty and has a definite length
  is inside a container of indefinite length, and no head of a container has been peeked.
-/

namespace RustBinary.Cbor

open Lib Lib.Act CborDecoder

/-! ## The items in a container -/

mutual

def Datum.size : Datum → ℕ
  | .container _ _ _ members => members.size + 1
  | _ => 1

def Members.size {kind : ContainerKind} : Members kind → ℕ
  | .nil => 0
  | .cons _ datum rest => 1 + (datum.size + rest.size)

end

mutual

/-- Outside its containers of indefinite length the item has no definite object but empty ones. -/
def Datum.Counted : Datum → Prop
  | .container _ kind framing members =>
      framing = .indefinite ∨ (kind = .object → members.length = 0) ∧ members.Counted
  | _ => True

def Members.Counted {kind : ContainerKind} : Members kind → Prop
  | .nil => True
  | .cons _ datum rest => datum.Counted ∧ rest.Counted

end

/-- A key, which is an item of its own to a reader of tokens. -/
def keyData : {kind : ContainerKind} → KeyOf kind → List Datum
  | .array, _ => []
  | .object, key => [.atom [] (.text key)]

/-- The items that a reader of tokens finds in a container. -/
def Members.pieces {kind : ContainerKind} : Members kind → List Datum
  | .nil => []
  | .cons key datum rest => keyData key ++ datum :: rest.pieces

def encodeAll (data : List Datum) : List UInt8 := data.flatMap Datum.encode

def sizeAll (data : List Datum) : ℕ := (data.map Datum.size).sum

lemma encodeAll_eq_nil {config : Config} {depth : ℕ} {data : List Datum}
    (hwithin : ∀ x ∈ data, x.Within config depth) (h : encodeAll data = []) : data = [] := by
  cases data with
  | nil => rfl
  | cons x data =>
      obtain ⟨byte, tail, hbytes, -⟩ := x.encode_cons (hwithin x (by simp))
      rw [encodeAll, List.flatMap_cons, hbytes] at h
      cases h

lemma Datum.size_pos (datum : Datum) : 0 < datum.size := by
  cases datum <;> simp [Datum.size]

@[simp] lemma encodeAll_nil : encodeAll [] = [] := rfl

@[simp] lemma encodeAll_cons (datum : Datum) (data : List Datum) :
    encodeAll (datum :: data) = datum.encode ++ encodeAll data := rfl

@[simp] lemma encodeAll_append (data data' : List Datum) :
    encodeAll (data ++ data') = encodeAll data ++ encodeAll data' := List.flatMap_append

@[simp] lemma sizeAll_nil : sizeAll [] = 0 := rfl

@[simp] lemma sizeAll_cons (datum : Datum) (data : List Datum) :
    sizeAll (datum :: data) = datum.size + sizeAll data := rfl

@[simp] lemma sizeAll_append (data data' : List Datum) :
    sizeAll (data ++ data') = sizeAll data + sizeAll data' := by
  simp [sizeAll]

lemma size_le_sizeAll {datum : Datum} {data : List Datum} (h : datum ∈ data) :
    datum.size ≤ sizeAll data :=
  List.le_sum_of_mem (List.mem_map_of_mem h)

/-- A property that the keys have holds of the items of a container when it holds of its
members. -/
lemma forall_keyData_append {P : Datum → Prop} (hkey : ∀ text, P (.atom [] (.text text)))
    {kind : ContainerKind} (key : KeyOf kind) (data : List Datum) :
    (∀ x ∈ keyData key ++ data, P x) ↔ ∀ x ∈ data, P x := by
  cases kind with
  | array => rfl
  | object =>
      change (∀ x ∈ Datum.atom [] (.text key) :: data, P x) ↔ _
      rw [List.forall_mem_cons]
      exact and_iff_right (hkey key)

lemma Members.encodeAll_pieces {kind : ContainerKind} :
    (members : Members kind) → encodeAll members.pieces = members.encode
  | .nil => rfl
  | .cons key datum rest => by
      have hkey : encodeAll (keyData key) = keyBytes key := by
        cases kind with
        | array => rfl
        | object => exact List.append_nil _
      rw [Members.pieces, encodeAll_append, encodeAll_cons, rest.encodeAll_pieces, hkey,
        Members.encode]

lemma Members.sizeAll_pieces {kind : ContainerKind} :
    (members : Members kind) → sizeAll members.pieces ≤ members.size
  | .nil => Nat.le_refl _
  | .cons key datum rest => by
      have hkey : sizeAll (keyData key) ≤ 1 := by
        cases kind with
        | array => exact Nat.zero_le _
        | object => exact Nat.le_refl _
      have := rest.sizeAll_pieces
      rw [Members.pieces, sizeAll_append, sizeAll_cons, Members.size]
      omega

/-- An array has as many items as elements, an object two for every entry. -/
lemma Members.length_pieces {kind : ContainerKind} : (members : Members kind) →
    members.pieces.length = members.length + if kind = .object then members.length else 0
  | .nil => by simp [Members.pieces, Members.length]
  | .cons key datum rest => by
      have := rest.length_pieces
      cases kind with
      | array => simpa [Members.pieces, Members.length, keyData] using this
      | object =>
          simp only [Members.pieces, Members.length, keyData, List.length_append,
            List.length_cons, List.length_nil, if_true] at this ⊢
          omega

lemma Members.byteFree_iff {kind : ContainerKind} : (members : Members kind) →
    (members.ByteFree ↔ ∀ x ∈ members.pieces, x.ByteFree)
  | .nil => by simp [Members.ByteFree, Members.pieces]
  | .cons key datum rest => by
      rw [Members.pieces, forall_keyData_append (fun _ => trivial), List.forall_mem_cons,
        ← rest.byteFree_iff, Members.ByteFree]

lemma Members.counted_iff {kind : ContainerKind} : (members : Members kind) →
    (members.Counted ↔ ∀ x ∈ members.pieces, x.Counted)
  | .nil => by simp [Members.Counted, Members.pieces]
  | .cons key datum rest => by
      rw [Members.pieces, forall_keyData_append (fun _ => trivial), List.forall_mem_cons,
        ← rest.counted_iff, Members.Counted]

lemma Members.Within.pieces {config : Config} {depth : ℕ} {kind : ContainerKind} :
    {members : Members kind} → members.Within config depth →
      ∀ x ∈ members.pieces, x.Within config depth
  | .nil, _ => by simp [Members.pieces]
  | .cons key datum rest, h => by
      rw [Members.pieces, forall_keyData_append (fun _ => trivial), List.forall_mem_cons]
      exact ⟨h.1, Members.Within.pieces h.2⟩

mutual

/-- An item that fits at some depth fits where there are fewer containers around it. -/
theorem Datum.Within.mono {config : Config} {depth depth' : ℕ} (hle : depth' ≤ depth) :
    {datum : Datum} → datum.Within config depth → datum.Within config depth'
  | .atom _ _, _ => trivial
  | .bytes _, _ => trivial
  | .container _ _ _ _, ⟨hdepth, hlim, hfits, hmembers⟩ =>
      ⟨hle.trans_lt hdepth, hlim, hfits, Members.Within.mono (Nat.succ_le_succ hle) hmembers⟩

theorem Members.Within.mono {config : Config} {depth depth' : ℕ} (hle : depth' ≤ depth)
    {kind : ContainerKind} :
    {members : Members kind} → members.Within config depth → members.Within config depth'
  | .nil, _ => trivial
  | .cons _ _ _, h => ⟨Datum.Within.mono hle h.1, Members.Within.mono hle h.2⟩

end

/-! ## The rounds of the loop -/

variable {s : CborDecoder}

/-- A loop that stops nearer to the top makes the same rounds, and more. -/
lemma visits_of_le {saved saved' : ℕ} (hle : saved ≤ saved') {t : CborDecoder} {u v : Unit}
    (hv : Visits (skipRound saved') u s v t) : Visits (skipRound saved) u s v t := by
  induction hv with
  | refl => exact .refl _ _
  | @step u u' _ s s' _ hround _ ih =>
      refine .step ?_ ih
      rw [skipRound, get_bind_run] at hround ⊢
      by_cases hlt : saved' < s.depth
      · rw [if_pos hlt] at hround
        rw [if_pos (hle.trans_lt hlt)]
        exact hround
      · rw [if_neg hlt] at hround
        cases hround

/-- A round fails. -/
def LoopFails (saved : ℕ) (s : CborDecoder) : Prop :=
  ∃ t e u, Visits (skipRound saved) () s () t ∧ skipRound saved () t = (.err e, u)

lemma LoopFails.of_visits {saved : ℕ} {t : CborDecoder} (hv : Visits (skipRound saved) () s () t)
    (h : LoopFails saved t) : LoopFails saved s := by
  obtain ⟨u, e, w, hv', hfail⟩ := h
  exact ⟨u, e, w, hv.trans hv', hfail⟩

lemma LoopFails.of_le {saved saved' : ℕ} (hle : saved ≤ saved') (h : LoopFails saved' s) :
    LoopFails saved s := by
  obtain ⟨t, e, u, hv, hfail⟩ := h
  refine ⟨t, e, u, visits_of_le hle hv, ?_⟩
  rw [skipRound, get_bind_run] at hfail ⊢
  by_cases hlt : saved' < t.depth
  · rw [if_pos hlt] at hfail
    rw [if_pos (hle.trans_lt hlt)]
    exact hfail
  · rw [if_neg hlt] at hfail
    cases hfail

/-- The first token cannot be taken, or a round behind it fails. -/
def SkipFails (s : CborDecoder) : Prop :=
  (∃ e t, takeToken s = (.err e, t)) ∨
    ∃ token t, takeToken s = (.ok token, t) ∧ LoopFails s.depth t

/-- A round takes a token when the open container is not at its end. -/
lemma skipRound_take {outer : List Frame} {kind : ContainerKind} {top : Option ℕ} {d : ℕ}
    (h : Inside s outer kind top d) (hend : atEnd ⟨kind, top⟩ s = (.ok false, s)) :
    skipRound d () s = (takeToken >>= fun _ => pure (.inl ())) s := by
  have hlt : d < s.depth := by
    rw [h.depth]
    exact Nat.lt_succ_self d
  rw [skipRound, get_bind_run, if_pos hlt, h.last]
  dsimp only
  rw [bind_of_ok hend, if_neg (by simp)]

/-- A round closes the open container when it is at its end. -/
lemma skipRound_close {outer : List Frame} {kind : ContainerKind} {framing : Framing} {d : ℕ}
    (hd : d < maxDepth) (h : Inside s outer kind framing.surplus d)
    (hnext : Next s framing.closeBytes) :
    skipRound d () s = (.ok (.inl ()), { s with
      cursor := s.cursor + framing.closeBytes.length, frames := outer, depth := d
      counts := s.counts.set d 0 hd }) := by
  have hlt : d < s.depth := by
    rw [h.depth]
    exact Nat.lt_succ_self d
  have hend : atEnd ⟨kind, framing.surplus⟩ s = (.ok true, s) := by
    cases framing with
    | definite width => rfl
    | indefinite => exact atEnd_indefinite hnext
  have hpass : passBreak ⟨kind, framing.surplus⟩ s =
      (.ok (), s.advance framing.closeBytes.length) := by
    cases framing with
    | definite width => rfl
    | indefinite => exact bumpCursor_next hnext
  rw [skipRound, get_bind_run, if_pos hlt, h.last]
  dsimp only
  rw [bind_of_ok hend, if_pos rfl, bind_of_ok hpass,
    bind_of_ok (popFrame_inside hd (h.advance framing.closeBytes.length))]
  rfl


/-! ## What is left of the items -/

/-- The bytes `taken` at the start of the items `data` are behind the decoder and the items
`left` remain. -/
structure Remains (config : Config) (depth : ℕ) (data : List Datum) (taken : List UInt8)
    (left : List Datum) : Prop where
  bytes : encodeAll data = taken ++ encodeAll left
  size_le : sizeAll left ≤ sizeAll data
  within : ∀ x ∈ left, x.Within config depth
  byteFree : (∀ x ∈ data, x.ByteFree) ↔ ∀ x ∈ left, x.ByteFree

lemma Remains.refl {config : Config} {depth : ℕ} {data : List Datum}
    (h : ∀ x ∈ data, x.Within config depth) : Remains config depth data [] data :=
  ⟨rfl, Nat.le_refl _, h, Iff.rfl⟩

lemma Remains.forall_byteFree {config : Config} {depth : ℕ} {x : Datum} {xs left : List Datum}
    {taken : List UInt8} (h : Remains config depth [x] taken left) :
    (∀ y ∈ x :: xs, y.ByteFree) ↔ ∀ y ∈ left ++ xs, y.ByteFree := by
  rw [List.forall_mem_cons, List.forall_mem_append, ← h.byteFree, List.forall_mem_singleton]

/-- What remains of the first item is before the items behind it. -/
lemma Remains.cons {config : Config} {depth : ℕ} {x : Datum} {xs left left' : List Datum}
    {taken taken' : List UInt8} (h : Remains config depth [x] taken left)
    (h' : Remains config depth (left ++ xs) taken' left') :
    Remains config depth (x :: xs) (taken ++ taken') left' := by
  refine ⟨?_, ?_, h'.within, ?_⟩
  · have hx : x.encode ++ [] = taken ++ encodeAll left := h.bytes
    rw [List.append_nil] at hx
    rw [encodeAll_cons, hx, List.append_assoc, ← encodeAll_append, h'.bytes, List.append_assoc]
  · have hsize := h.size_le
    have hsize' := h'.size_le
    rw [sizeAll_append] at hsize'
    rw [sizeAll_cons, sizeAll_nil, Nat.add_zero] at hsize
    rw [sizeAll_cons]
    omega
  · rw [h.forall_byteFree, h'.byteFree]

/-- `skip_value`, from its first token on, fails on a byte string in the item, or leaves smaller
items behind it, and none exactly when the item is counted. -/
def Portion (x : Datum) (s : CborDecoder) : Prop :=
  (∃ taken left token t, Remains s.config s.depth [x] taken left ∧ sizeAll left < x.size ∧
      (left = [] ↔ x.Counted) ∧ takeToken s = (.ok token, t) ∧
      Visits (skipRound s.depth) () t () ((s.advance taken.length).charge)) ∨
    ¬ x.ByteFree ∧ SkipFails s

/-- What `Portion` says, of the loop of `skip_value` inside a container. -/
lemma Portion.inside {x : Datum} {outer : List Frame} {kind : ContainerKind} {top : Option ℕ}
    {d : ℕ} (hx : Portion x s) (h : Inside s outer kind top d) (htop : top ≠ some 0)
    (hwithin : x.Within s.config (d + 1)) (hnext : Next s x.encode) :
    (∃ taken left, Remains s.config (d + 1) [x] taken left ∧ sizeAll left < x.size ∧
      (left = [] ↔ x.Counted) ∧
      Visits (skipRound d) () s ()
        (behind s taken.length (outer ++ [⟨kind, top.map (· - 1)⟩]))) ∨
    ¬ x.ByteFree ∧ LoopFails d s := by
  obtain ⟨byte, tail, hbytes, hbyte⟩ := x.encode_cons hwithin
  have hend : atEnd ⟨kind, top⟩ s = (.ok false, s) := by
    rw [hbytes] at hnext
    exact atEnd_false htop hnext hbyte
  have hround := skipRound_take h hend
  have hle : d ≤ s.depth := by
    rw [h.depth]
    exact Nat.le_succ d
  rcases hx with ⟨taken, left, token, t, hremains, hsize, hcounted, htake, hv⟩ |
    ⟨hbyteFree, hfail⟩
  · refine .inl ⟨taken, left, by rw [← h.depth]; exact hremains, hsize, hcounted, ?_⟩
    rw [bind_of_ok htake] at hround
    have hframes : (s.advance taken.length).charge =
        behind s taken.length (outer ++ [⟨kind, top.map (· - 1)⟩]) := by
      rw [charge, behind, ← chargeTop_append, ← h.frames]
      rfl
    rw [← hframes]
    exact .step hround (visits_of_le hle hv)
  · refine .inr ⟨hbyteFree, ?_⟩
    rcases hfail with ⟨e, t, htake⟩ | ⟨token, t, htake, hloop⟩
    · exact ⟨s, e, t, .refl _ _, by rw [hround, bind_of_err htake]⟩
    · rw [bind_of_ok htake] at hround
      exact (hloop.of_le hle).of_visits (.step hround (.refl _ _))

lemma Inside.behind {outer : List Frame} {kind : ContainerKind} {top : Option ℕ} {d : ℕ}
    (h : Inside s outer kind top d) (n : ℕ) (top' : Option ℕ) :
    Inside (behind s n (outer ++ [⟨kind, top'⟩])) outer kind top' d :=
  ⟨⟨h.noPending, h.counts_zero⟩, rfl, h.depth, h.lt⟩

lemma Remains.next {config : Config} {depth : ℕ} {x : Datum} {left : List Datum}
    {taken bs : List UInt8} (h : Remains config depth [x] taken left)
    (hnext : Next s (x.encode ++ bs)) (frames : List Frame) :
    Next (behind s taken.length frames) (encodeAll left ++ bs) := by
  have hx : x.encode ++ [] = taken ++ encodeAll left := h.bytes
  rw [List.append_nil] at hx
  rw [hx, List.append_assoc] at hnext
  have := hnext.right
  exact ⟨this.isPrefix, this.inside, this.admits⟩

lemma behind_behind (s : CborDecoder) (m n : ℕ) (frames frames' : List Frame) :
    behind (behind s m frames) n frames' = behind s (m + n) frames' := by
  simp [behind, Nat.add_assoc]

/-- Every item of size at most `n` that comes next is taken as `Portion` says. -/
def Portions (n : ℕ) : Prop :=
  ∀ x s, x.size ≤ n → Ready s → x.Within s.config s.depth → HasRoom s → Next s x.encode →
    Portion x s

section Rounds

variable {n : ℕ} {outer : List Frame} {kind : ContainerKind} {d : ℕ}

/-- The rounds in a container for the first of the items that come next. -/
lemma Portions.first (hportions : Portions n) {top : Option ℕ} {x : Datum} {xs : List Datum}
    {bs : List UInt8} (h : Inside s outer kind top d) (htop : top ≠ some 0)
    (hsize : ∀ y ∈ x :: xs, y.size ≤ n) (hwithin : ∀ y ∈ x :: xs, y.Within s.config (d + 1))
    (hnext : Next s (encodeAll (x :: xs) ++ bs)) :
    (∃ taken left, Remains s.config (d + 1) [x] taken left ∧ sizeAll left < x.size ∧
      (left = [] ↔ x.Counted) ∧
      Visits (skipRound d) () s ()
        (behind s taken.length (outer ++ [⟨kind, top.map (· - 1)⟩])) ∧
      (∀ y ∈ left ++ xs, y.size ≤ n) ∧ (∀ y ∈ left ++ xs, y.Within s.config (d + 1)) ∧
      Next (behind s taken.length (outer ++ [⟨kind, top.map (· - 1)⟩]))
        (encodeAll (left ++ xs) ++ bs)) ∨
    (¬ ∀ y ∈ x :: xs, y.ByteFree) ∧ LoopFails d s := by
  rw [encodeAll_cons, List.append_assoc] at hnext
  rw [List.forall_mem_cons] at hsize hwithin
  have hx := hportions x s hsize.1 h.toReady (by rw [h.depth]; exact hwithin.1) (h.hasRoom htop)
    hnext.left
  rcases hx.inside h htop hwithin.1 hnext.left with
    ⟨taken, left, hremains, hless, hcounted, hv⟩ | ⟨hbytes, hfail⟩
  · refine .inl ⟨taken, left, hremains, hless, hcounted, hv, ?_, ?_, ?_⟩
    · refine List.forall_mem_append.mpr ⟨fun y hy => ?_, hsize.2⟩
      have := size_le_sizeAll hy
      have := hsize.1
      omega
    · exact List.forall_mem_append.mpr ⟨hremains.within, hwithin.2⟩
    · rw [encodeAll_append, List.append_assoc]
      exact hremains.next hnext _
  · exact .inr ⟨fun hfree => hbytes (hfree x (by simp)), hfail⟩

/-- The rounds in a definite container: `k` items are taken of those that are there. -/
lemma Portions.definite (hportions : Portions n) (k : ℕ) (xs : List Datum) (s : CborDecoder)
    (hk : k ≤ xs.length) (h : Inside s outer kind (some k) d) (hsize : ∀ x ∈ xs, x.size ≤ n)
    (hwithin : ∀ x ∈ xs, x.Within s.config (d + 1)) (hnext : Next s (encodeAll xs ++ [])) :
    (∃ taken left, Remains s.config (d + 1) xs taken left ∧
      (left = [] ↔ k = xs.length ∧ ∀ x ∈ xs, x.Counted) ∧
      Visits (skipRound d) () s () (behind s taken.length (outer ++ [⟨kind, some 0⟩]))) ∨
    (¬ ∀ x ∈ xs, x.ByteFree) ∧ LoopFails d s := by
  induction k generalizing xs s with
  | zero =>
      refine .inl ⟨[], xs, .refl hwithin, ?_, ?_⟩
      · constructor
        · rintro rfl
          exact ⟨rfl, by simp⟩
        · rintro ⟨hlen, -⟩
          exact List.length_eq_zero_iff.mp hlen.symm
      · rw [behind, ← h.frames]
        exact .refl _ _
  | succ k ih =>
      cases xs with
      | nil => exact absurd hk (by simp)
      | cons x xs =>
          rw [List.length_cons] at hk
          rcases hportions.first h (by simp) hsize hwithin hnext with
            ⟨taken, left, hremains, -, hcounted, hv, hsize', hwithin', hnext'⟩ | hfail
          · have hlen : k ≤ (left ++ xs).length := by
              rw [List.length_append]
              omega
            rcases ih (left ++ xs) _ hlen (h.behind taken.length (some k)) hsize' hwithin' hnext'
              with ⟨taken', left', hremains', hall, hv'⟩ | ⟨hbytes, hfail⟩
            · refine .inl ⟨taken ++ taken', left', hremains.cons hremains', ?_, ?_⟩
              · rw [hall, List.forall_mem_append, List.forall_mem_cons, List.length_append,
                  List.length_cons, ← hcounted]
                constructor
                · rintro ⟨hlength, -, hxs⟩
                  have : left.length = 0 := by omega
                  exact ⟨by omega, List.length_eq_zero_iff.mp this, hxs⟩
                · rintro ⟨hlength, rfl, hxs⟩
                  exact ⟨by simpa using hlength, by simp, hxs⟩
              · rw [behind_behind, ← List.length_append] at hv'
                exact hv.trans hv'
            · exact .inr ⟨fun hfree => hbytes (hremains.forall_byteFree.mp hfree),
                hfail.of_visits hv⟩
          · exact .inr hfail

/-- The rounds in a container of indefinite length: all that is there is taken. -/
lemma Portions.indefinite (hportions : Portions n) (xs : List Datum) (s : CborDecoder)
    (h : Inside s outer kind none d) (hsize : ∀ x ∈ xs, x.size ≤ n)
    (hwithin : ∀ x ∈ xs, x.Within s.config (d + 1)) (hnext : Next s (encodeAll xs ++ [0xff])) :
    (∃ taken, Remains s.config (d + 1) xs taken [] ∧
      Visits (skipRound d) () s () (behind s taken.length (outer ++ [⟨kind, none⟩]))) ∨
    (¬ ∀ x ∈ xs, x.ByteFree) ∧ LoopFails d s := by
  -- what remains of an item is smaller than the item
  induction hm : sizeAll xs using Nat.strong_induction_on generalizing xs s with
  | _ m ih =>
      cases xs with
      | nil =>
          refine .inl ⟨[], .refl hwithin, ?_⟩
          rw [behind, ← h.frames]
          exact .refl _ _
      | cons x xs =>
          rcases hportions.first h (by simp) hsize hwithin hnext with
            ⟨taken, left, hremains, hless, -, hv, hsize', hwithin', hnext'⟩ | hfail
          · have hsmall : sizeAll (left ++ xs) < m := by
              rw [sizeAll_cons] at hm
              rw [sizeAll_append]
              omega
            rcases ih _ hsmall (left ++ xs) _ (h.behind taken.length none) hsize' hwithin' hnext'
              rfl with ⟨taken', hremains', hv'⟩ | ⟨hbytes, hfail⟩
            · refine .inl ⟨taken ++ taken', hremains.cons hremains', ?_⟩
              rw [behind_behind, ← List.length_append] at hv'
              exact hv.trans hv'
            · exact .inr ⟨fun hfree => hbytes (hremains.forall_byteFree.mp hfree),
                hfail.of_visits hv⟩
          · exact .inr hfail

end Rounds

/-! ## What is taken of one item -/

lemma portion_atom {tags : List Tag} {value : Atom} (hready : Ready s)
    (hnext : Next s (Datum.atom tags value).encode) (hroom : HasRoom s) :
    Portion (.atom tags value) s := by
  have htake : takeToken s = (.ok value.token, (Datum.atom tags value).after s) := by
    rw [takeToken_none s hready.noPending, readToken_atom hnext hroom]
  refine .inl ⟨(Datum.atom tags value).encode, [], value.token, _, ?_, Datum.size_pos _, ?_,
    htake, .refl _ _⟩
  · exact ⟨rfl, Nat.zero_le _, by simp, by simp [Datum.ByteFree]⟩
  · simp [Datum.Counted]

/-- A byte string is not a token. -/
lemma readToken_bytes {value : ByteString} (h : Next s (value.encode 2)) :
    ∃ e t, readToken s = (.err e, t) := by
  obtain ⟨argument, t, hhead, -⟩ := readBytes_next h
  have hround : tokenRound () s = tokenOf 2 argument t := by
    rw [tokenRound, bind_of_ok hhead]
  have hfail : tokenOf 2 argument t = (.err wireFailure, failed t (.custom
      "byte string (major type 2) is outside the value model; use FormatDecoder::bytes")) := rfl
  exact ⟨_, _, by rw [readToken, get_bind_run, iterate_succ_run, hround, hfail]⟩

lemma portion_bytes {value : ByteString} (hready : Ready s) (hnext : Next s (value.encode 2)) :
    Portion (.bytes value) s := by
  obtain ⟨e, t, hread⟩ := readToken_bytes hnext
  exact .inr ⟨id, .inl ⟨e, t, by rw [takeToken_none s hready.noPending, hread]⟩⟩

section Container

variable {tags : List Tag} {kind : ContainerKind} {framing : Framing} {members : Members kind}

/-- When the loop is at the end of a container, one more round leaves it. -/
lemma portion_container (hready : Ready s)
    (hwithin : (Datum.container tags kind framing members).Within s.config s.depth)
    (hnext : Next s (Datum.container tags kind framing members).encode) (hroom : HasRoom s)
    {taken : List UInt8} {left : List Datum}
    (hremains : Remains s.config (s.depth + 1) members.pieces taken left)
    (hleft : left = [] ∨ framing.closeBytes = [])
    (hcounted : left = [] ↔ (Datum.container tags kind framing members).Counted)
    (hv : Visits (skipRound s.depth) ()
      (opened kind framing members.length (s.advance (tagBytes tags).length)) ()
      (behind (opened kind framing members.length (s.advance (tagBytes tags).length)) taken.length
        (chargeTop s.frames ++ [⟨kind, framing.surplus⟩]))) :
    Portion (.container tags kind framing members) s := by
  have hdepth : s.depth < maxDepth := hwithin.1
  have hready' : Ready (s.advance (tagBytes tags).length) := ⟨hready.noPending, hready.counts_zero⟩
  have htake : takeToken s = (.ok kind.token,
      opened kind framing members.length (s.advance (tagBytes tags).length)) := by
    rw [takeToken_none s hready.noPending, readToken_container hwithin hnext hroom]
  have hmembers : members.encode ++ framing.closeBytes =
      (taken ++ framing.closeBytes) ++ encodeAll left := by
    rw [← members.encodeAll_pieces, hremains.bytes]
    rcases hleft with rfl | hclose
    · simp
    · simp [hclose]
  have hinside := (opened_inside kind framing members.length hready' hdepth).behind taken.length
    framing.surplus
  have hbytes : Next (behind (opened kind framing members.length
      (s.advance (tagBytes tags).length)) taken.length (chargeTop s.frames ++
        [⟨kind, framing.surplus⟩])) framing.closeBytes := by
    have hrest := hnext.right.right
    rw [hmembers, List.append_assoc] at hrest
    have := hrest.right.left
    exact ⟨this.isPrefix, this.inside, this.admits⟩
  have hround := skipRound_close hdepth hinside hbytes
  refine .inl ⟨tagBytes tags ++ (framing.openBytes kind members.length ++
    (taken ++ framing.closeBytes)), left, kind.token, _, ?_, ?_, hcounted, htake, ?_⟩
  · refine ⟨?_, ?_, fun x hx => (hremains.within x hx).mono (Nat.le_succ _), ?_⟩
    · rw [encodeAll_cons, encodeAll_nil, List.append_nil, Datum.encode, hmembers]
      simp only [List.append_assoc]
    · have := hremains.size_le
      have := members.sizeAll_pieces
      rw [sizeAll_cons, Datum.size]
      omega
    · rw [List.forall_mem_singleton, Datum.ByteFree, members.byteFree_iff, hremains.byteFree]
  · have := hremains.size_le
    have := members.sizeAll_pieces
    rw [Datum.size]
    omega
  · refine hv.trans (.step hround ?_)
    have hcounts : s.counts.set s.depth 0 hdepth = s.counts := hready.set_counts hdepth
    simp only [behind, opened, advance, charge, List.length_append, hcounts, Nat.add_assoc]
    exact .refl _ _

end Container

/-- Every item that comes next is taken as `Portion` says. -/
theorem portions (n : ℕ) : Portions n := by
  induction n with
  | zero => exact fun x _ hsize => absurd x.size_pos (by omega)
  | succ n ih =>
      intro x s hsize hready hwithin hroom hnext
      match x with
      | .atom tags value => exact portion_atom hready hnext hroom
      | .bytes value => exact portion_bytes hready hnext
      | .container tags kind framing members =>
          have hdepth : s.depth < maxDepth := hwithin.1
          have hready' : Ready (s.advance (tagBytes tags).length) :=
            ⟨hready.noPending, hready.counts_zero⟩
          have hread := readToken_container hwithin hnext hroom
          have htake : takeToken s = (.ok kind.token,
              opened kind framing members.length (s.advance (tagBytes tags).length)) := by
            rw [takeToken_none s hready.noPending, hread]
          have hinside := opened_inside kind framing members.length hready' hdepth
          have hpieces : ∀ y ∈ members.pieces, y.size ≤ n := by
            intro y hy
            have := size_le_sizeAll hy
            have := members.sizeAll_pieces
            rw [Datum.size] at hsize
            omega
          have hrest : Next (opened kind framing members.length
              (s.advance (tagBytes tags).length)) (encodeAll members.pieces ++
                closing framing.surplus) := by
            rw [members.encodeAll_pieces]
            exact Next.opened hnext.right
          have hbyteFree : (Datum.container tags kind framing members).ByteFree ↔
              ∀ y ∈ members.pieces, y.ByteFree := members.byteFree_iff
          cases framing with
          | definite width =>
              have hlen := members.length_pieces
              rcases ih.definite members.length members.pieces _ (by omega) hinside hpieces
                hwithin.2.2.2.pieces hrest with
                ⟨taken, left, hremains, hall, hv⟩ | ⟨hbytes, hfail⟩
              · refine portion_container hready hwithin hnext hroom hremains (.inr rfl) ?_ hv
                rw [hall, ← members.counted_iff, Datum.Counted]
                have hcount : members.length = members.pieces.length ↔
                    (kind = .object → members.length = 0) := by
                  rw [hlen]
                  by_cases hkind : kind = .object
                  · rw [if_pos hkind]
                    exact ⟨fun h _ => by omega, fun h => by have := h hkind; omega⟩
                  · rw [if_neg hkind]
                    exact ⟨fun _ h => absurd h hkind, fun _ => by omega⟩
                rw [hcount]
                simp
              · exact .inr ⟨fun hfree => hbytes (hbyteFree.mp hfree), .inr ⟨_, _, htake, hfail⟩⟩
          | indefinite =>
              rcases ih.indefinite members.pieces _ hinside hpieces hwithin.2.2.2.pieces hrest with
                ⟨taken, hremains, hv⟩ | ⟨hbytes, hfail⟩
              · refine portion_container hready hwithin hnext hroom hremains (.inl rfl) ?_ hv
                simp [Datum.Counted]
              · exact .inr ⟨fun hfree => hbytes (hbyteFree.mp hfree), .inr ⟨_, _, htake, hfail⟩⟩

/-! ## Skipping and reading -/

/-- The loop of `skip_value` after the rounds that lead to `t`. -/
lemma skipLoop_of_visits {saved : ℕ} {t : CborDecoder} (hs : Inv s) (hl : s.lookahead = none)
    (hv : Visits (skipRound saved) () s () t) :
    ∃ n, iterate (skipRound saved) ((maxDepth + 1) * (s.input.bytes.length + 1)) () s =
      iterate (skipRound saved) (n + 1) () t :=
  ⟨skipMeasure t, iterate_eq_of_visits (fun _ t => skipMeasure t)
    (fun _ _ _ _ hv' h => skipRound_measure (skipLoop_keeps hs hl hv') h) hv (skipMeasure_lt hs)
    (Nat.lt_succ_self _)⟩

lemma inv_takeToken {token : Token} {t : CborDecoder} (hs : Inv s)
    (htake : takeToken s = (.ok token, t)) : Inv t ∧ t.lookahead = none := by
  have h := primitive_inv.takeToken s hs
  rw [htake] at h
  exact ⟨h, takeToken_lookahead htake⟩

lemma skipValueInner_run (s : CborDecoder) :
    skipValueInner s = (takeToken >>= fun _ => Act.get >>= fun t =>
      iterate (skipRound s.depth) ((maxDepth + 1) * (t.input.bytes.length + 1)) ()) s := rfl

lemma skipValueInner_eq {token : Token} {t : CborDecoder} (htake : takeToken s = (.ok token, t)) :
    skipValueInner s =
      iterate (skipRound s.depth) ((maxDepth + 1) * (t.input.bytes.length + 1)) () t := by
  rw [skipValueInner_run, bind_of_ok htake, get_bind_run]

/-- The loop stops when it is back at the depth it started from. -/
lemma skipValueInner_of_visits (hs : Inv s) {token : Token} {t u : CborDecoder}
    (htake : takeToken s = (.ok token, t)) (hv : Visits (skipRound s.depth) () t () u)
    (hdepth : u.depth = s.depth) : skipValueInner s = (.ok (), u) := by
  obtain ⟨ht, htl⟩ := inv_takeToken hs htake
  obtain ⟨n, hloop⟩ := skipLoop_of_visits ht htl hv
  have hstop : skipRound s.depth () u = (.ok (.inr ()), u) := by
    rw [skipRound, get_bind_run, if_neg (by omega)]
    rfl
  rw [skipValueInner_eq htake, hloop, iterate_succ_run, hstop]

lemma skipValueInner_of_fails (hs : Inv s) (h : SkipFails s) :
    ∃ e t, skipValueInner s = (.err e, t) := by
  rcases h with ⟨e, t, htake⟩ | ⟨token, t, htake, u, e, v, hv, hfail⟩
  · exact ⟨e, t, by rw [skipValueInner_run, bind_of_err htake]⟩
  · obtain ⟨ht, htl⟩ := inv_takeToken hs htake
    obtain ⟨n, hloop⟩ := skipLoop_of_visits ht htl hv
    exact ⟨e, v, by rw [skipValueInner_eq htake, hloop, iterate_succ_run, hfail]⟩

/-- Skipping an item that has not been peeked. -/
lemma skipValueInner_next {datum : Datum} (hs : Inv s) (hl : s.lookahead = none)
    (hwithin : datum.Within s.config s.depth) (hnext : Next s datum.encode) (hroom : HasRoom s) :
    (∃ taken left, Remains s.config s.depth [datum] taken left ∧ (left = [] ↔ datum.Counted) ∧
      skipValueInner s = (.ok (), (s.advance taken.length).charge)) ∨
    ¬ datum.ByteFree ∧ ∃ e t, skipValueInner s = (.err e, t) := by
  rcases portions datum.size datum s (Nat.le_refl _) ⟨hl, hs.counts_zero⟩ hwithin hroom hnext with
    ⟨taken, left, token, t, hremains, -, hcounted, htake, hv⟩ | ⟨hbytes, hfail⟩
  · exact .inl ⟨taken, left, hremains, hcounted, skipValueInner_of_visits hs htake hv rfl⟩
  · exact .inr ⟨hbytes, skipValueInner_of_fails hs hfail⟩

/-- After a token has been peeked, `skip_value` takes it and stops, whatever the token opened. -/
lemma skipValueInner_peeked {token : Token} (h : s.lookahead = some token) :
    skipValueInner s = (.ok (), { s with lookahead := none }) := by
  have hstop : skipRound s.depth () { s with lookahead := none } =
      (.ok (.inr ()), { s with lookahead := none }) := by
    rw [skipRound, get_bind_run, if_neg (Nat.lt_irrefl _)]
    rfl
  rw [skipValueInner_eq (takeToken_some s h), Nat.mul_succ, Nat.add_succ, iterate_succ_run, hstop]

lemma peekTokenInner_eq (hl : s.lookahead = none) {token : Token} {t : CborDecoder}
    (hread : readToken s = (.ok token, t)) :
    peekTokenInner s = (.ok token, { t with lookahead := some token }) := by
  rw [peekTokenInner, get_bind_run, hl]
  dsimp only
  rw [bind_of_ok hread]
  rfl

variable (narrow : Number → Option UInt8)

/-- Reading the item through leads from `s` to `v`. -/
structure ReadsThrough (datum : Datum) (s v : CborDecoder) : Prop where
  answers : run (step narrow) datum.calls s = (datum.rets.map .ok, v)
  passed : v.cursor = s.cursor + datum.encode.length
  closed : v.depth = s.depth

/-- `skip_value` succeeds on the item that comes next in `s`, after its first token has been
peeked or at once, and leaves the cursor, the depth and the stack with its remaining counts as
reading the item through leaves them. -/
def SkipsAsRead (peeked : Bool) (datum : Datum) (s : CborDecoder) : Prop :=
  ∃ t u v, (if peeked then ∃ token, step narrow (.required .peekToken) s = (.ok (.token token), t)
      else t = s) ∧
    step narrow (.required .skipValue) t = (.ok .unit, u) ∧ ReadsThrough narrow datum s v ∧
    u.cursor = v.cursor ∧ u.depth = v.depth ∧ u.frames = v.frames

def Datum.isContainer : Datum → Bool
  | .container _ _ _ _ => true
  | _ => false

lemma readsThrough_after {datum : Datum} (hready : Ready s)
    (hwithin : datum.Within s.config s.depth) (hfree : datum.ByteFree)
    (hnext : Next s datum.encode) (hroom : HasRoom s) :
    ReadsThrough narrow datum s (datum.after s) :=
  ⟨datum.run_of_byteFree narrow s hready hwithin hfree hnext hroom, rfl, rfl⟩

lemma step_skipValue {t u : CborDecoder} :
    step narrow (.required .skipValue) t = (.ok .unit, u) ↔ skipValueInner t = (.ok (), u) := by
  constructor
  · intro h
    obtain ⟨_, hskip, -⟩ := map_eq_ok.mp h
    exact hskip
  · exact fun h => map_of_ok h

lemma step_peekToken {s t : CborDecoder} {token : Token} :
    step narrow (.required .peekToken) s = (.ok (.token token), t) ↔
      peekTokenInner s = (.ok token, t) := by
  constructor
  · intro h
    obtain ⟨_, hpeek, htoken⟩ := map_eq_ok.mp h
    cases htoken
    exact hpeek
  · exact fun h => map_of_ok h

/-- Skipping an item that has not been peeked. -/
lemma skipsAsRead_next {datum : Datum} (hinv : Inv s) (hl : s.lookahead = none)
    (hwithin : datum.Within s.config s.depth) (hnext : Next s datum.encode) (hroom : HasRoom s) :
    SkipsAsRead narrow false datum s ↔ datum.ByteFree ∧ datum.Counted := by
  have hskip := skipValueInner_next hinv hl hwithin hnext hroom
  constructor
  · rintro ⟨t, u, v, rfl, hstep, hreads, hcursor, -, -⟩
    rw [step_skipValue] at hstep
    rcases hskip with ⟨taken, left, hremains, hcounted, heq⟩ | ⟨-, e, t', heq⟩
    · rw [heq] at hstep
      cases hstep
      have hbytes : datum.encode ++ [] = taken ++ encodeAll left := hremains.bytes
      have hlength : t.cursor + taken.length = t.cursor + datum.encode.length :=
        hcursor.trans hreads.passed
      have hnil : encodeAll left = [] := by
        rw [List.append_nil] at hbytes
        rw [hbytes, List.length_append] at hlength
        exact List.length_eq_zero_iff.mp (by omega)
      obtain rfl := encodeAll_eq_nil hremains.within hnil
      exact ⟨hremains.byteFree.mpr (by simp) datum (by simp), hcounted.mp rfl⟩
    · rw [heq] at hstep
      cases hstep
  · rintro ⟨hfree, hall⟩
    rcases hskip with ⟨taken, left, hremains, hcounted, heq⟩ | ⟨hbytes, -⟩
    · obtain rfl := hcounted.mpr hall
      have hbytes : datum.encode ++ [] = taken ++ [] := hremains.bytes
      rw [List.append_nil, List.append_nil] at hbytes
      rw [← hbytes] at heq
      exact ⟨s, _, _, rfl, (step_skipValue narrow).mpr heq,
        readsThrough_after narrow ⟨hl, hinv.counts_zero⟩ hwithin hfree hnext hroom, rfl, rfl, rfl⟩
    · exact absurd hfree hbytes

/-- Skipping an item whose first token has been peeked. -/
lemma skipsAsRead_peeked {datum : Datum} (hinv : Inv s) (hl : s.lookahead = none)
    (hwithin : datum.Within s.config s.depth) (hnext : Next s datum.encode) (hroom : HasRoom s) :
    SkipsAsRead narrow true datum s ↔ datum.ByteFree ∧ datum.isContainer = false := by
  constructor
  · rintro ⟨t, u, v, ⟨token, hpeek⟩, hstep, hreads, -, hdepth, -⟩
    rw [step_peekToken] at hpeek
    rw [step_skipValue] at hstep
    cases datum with
    | atom tags value => exact ⟨trivial, rfl⟩
    | bytes value =>
        obtain ⟨e, w, hread⟩ := readToken_bytes hnext
        rw [peekTokenInner, get_bind_run, hl] at hpeek
        dsimp only at hpeek
        rw [bind_of_err hread] at hpeek
        cases hpeek
    | container tags kind framing members =>
        -- the depth that the loop compares with is the one inside the container
        rw [peekTokenInner_eq hl (readToken_container hwithin hnext hroom)] at hpeek
        cases hpeek
        rw [skipValueInner_peeked rfl] at hstep
        cases hstep
        have hinner : s.depth + 1 = s.depth := hdepth.trans hreads.closed
        omega
  · rintro ⟨hfree, hatom⟩
    cases datum with
    | atom tags value =>
        have hpeek := peekTokenInner_eq hl (readToken_atom hnext hroom)
        exact ⟨_, _, _, ⟨_, (step_peekToken narrow).mpr hpeek⟩,
          (step_skipValue narrow).mpr (skipValueInner_peeked rfl),
          readsThrough_after narrow ⟨hl, hinv.counts_zero⟩ hwithin hfree hnext hroom, rfl, rfl, rfl⟩
    | bytes value => exact absurd hfree id
    | container tags kind framing members => cases hatom

/-- **Skipping an item.** `skip_value` leaves the decoder as reading the item through does if and
only if no byte string occurs in the item, it has no definite object with entries outside its
containers of indefinite length, and it is not a container whose head has been peeked. -/
theorem skipsAsRead_iff (peeked : Bool) {datum : Datum} (hs : Reachable narrow s)
    (hl : s.lookahead = none) (hwithin : datum.Within s.config s.depth)
    (hnext : Next s datum.encode) (hroom : HasRoom s) :
    SkipsAsRead narrow peeked datum s ↔
      datum.ByteFree ∧ datum.Counted ∧ (peeked = true → datum.isContainer = false) := by
  have hinv := inv_of_reachable hs
  cases peeked with
  | false =>
      rw [skipsAsRead_next narrow hinv hl hwithin hnext hroom]
      simp
  | true =>
      rw [skipsAsRead_peeked narrow hinv hl hwithin hnext hroom]
      constructor
      · rintro ⟨hfree, hatom⟩
        refine ⟨hfree, ?_, fun _ => hatom⟩
        cases datum with
        | atom tags value => trivial
        | bytes value => trivial
        | container tags kind framing members => cases hatom
      · exact fun h => ⟨h.1, h.2.2 rfl⟩

/-- The entry `"a": 2` of an object. -/
def oneEntry : Members .object :=
  .cons ⟨"a", .definite ⟨[0x61], .immediate, by decide⟩, by decide⟩
    (.atom [] (.number (.unsigned ⟨2, .immediate, by decide⟩))) .nil

/-- The object `{"a": 2}` of definite length in an array of indefinite length. -/
theorem skipsAsRead_inside :
    SkipsAsRead narrowUnsigned false
      (.container [] .array .indefinite
        (.cons () (.container [] .object (.definite .immediate) oneEntry) .nil))
      (new ⟨[0x9f, 0xa1, 0x61, 0x61, 0x02, 0xff], by decide⟩ .standard) := by
  have hlimit : ∀ l, Config.standard.collectionLimit = some l → 1 ≤ l := by
    intro l hl
    cases hl
    decide
  refine (skipsAsRead_iff narrowUnsigned false ⟨_, _, [], rfl⟩ rfl ?_ ?_ ?_).mpr ?_
  · exact ⟨by decide, hlimit, trivial, ⟨by decide, hlimit, by decide, trivial, trivial⟩, trivial⟩
  · refine next_new (by decide) fun l hl => ?_
    cases hl
    decide
  · exact hasRoom_new _ _
  · exact ⟨⟨⟨trivial, trivial⟩, trivial⟩, .inl rfl, by simp⟩

/-- The definite object `{"a": 2}` on its own: its value is left behind. -/
theorem skipsAsRead_definite :
    ¬ SkipsAsRead narrowUnsigned false
      (.container [] .object (.definite .immediate) oneEntry)
      (new ⟨[0xa1, 0x61, 0x61, 0x02], by decide⟩ .standard) := by
  rintro ⟨t, u, v, rfl, hskip, hreads, hcursor, -, -⟩
  have hu : u = (step narrowUnsigned (.required .skipValue)
      (new ⟨[0xa1, 0x61, 0x61, 0x02], by decide⟩ .standard)).2 := by
    rw [hskip]
  have hthree : u.cursor = 3 := by
    rw [hu]
    decide
  have hfour : v.cursor = 4 := hreads.passed
  omega

end RustBinary.Cbor
