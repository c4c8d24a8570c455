import RustBinary.Cbor.Invariant
import RustBinary.Cbor.Head

/-!
# Progress through the input

Reading never goes back, and a head takes at least one byte that is there.  So every round
of the loops over chunks and tags, and every token that is not pending, leaves less input.
-/

namespace RustBinary.Cbor

open Lib Lib.Act CborDecoder

/-- The number of bytes after the cursor. -/
def CborDecoder.rest (s : CborDecoder) : ℕ := s.input.bytes.length - s.cursor

/-- `t` is a decoder of the same input, no earlier in it than `s`. -/
def Forward (s t : CborDecoder) : Prop := t.input = s.input ∧ s.cursor ≤ t.cursor

lemma Forward.rest_le {s t : CborDecoder} (h : Forward s t) : t.rest ≤ s.rest := by
  have := h.2
  rw [CborDecoder.rest, CborDecoder.rest, h.1]
  omega

lemma forward_popFrame (kind : ContainerKind) : Moves Forward (popFrame kind) := by
  intro s
  rcases popFrame_cases s kind with ⟨d, hd, definite, -, -, h⟩ | ⟨-, e, h⟩ | ⟨-, -, h⟩
  · rw [h]
    exact ⟨rfl, Nat.le_refl _⟩
  · rw [h]
    exact ⟨rfl, Nat.le_refl _⟩
  · rw [h]
    exact ⟨rfl, Nat.le_refl _⟩

lemma primitive_forward : Primitive fun _ m => Moves Forward m := by
  refine primitive_moves (fun s => ⟨rfl, Nat.le_refl _⟩)
    (fun s t u h h' => ⟨h'.1.trans h.1, h.2.trans h'.2⟩) ?_ ?_ ?_ ?_ ?_ ?_
  · exact fun s e => ⟨rfl, Nat.le_refl _⟩
  · exact fun s n => ⟨rfl, Nat.le_add_right _ _⟩
  · exact fun s => ⟨rfl, Nat.le_refl _⟩
  · exact fun s kind next _ => ⟨rfl, Nat.le_refl _⟩
  · exact fun s frame _ => ⟨rfl, Nat.le_refl _⟩
  · exact fun s index count hi _ => ⟨rfl, Nat.le_refl _⟩

/-- No step but the peek of a token makes one pending. -/
def Unpeeked (s t : CborDecoder) : Prop := s.lookahead = none → t.lookahead = none

lemma primitive_unpeeked : Primitive fun _ m => Moves Unpeeked m := by
  refine primitive_moves (fun s h => h) (fun s t u h h' hs => h' (h hs)) ?_ ?_ ?_ ?_ ?_ ?_
  · exact fun s e h => h
  · exact fun s n h => h
  · exact fun s h => rfl
  · exact fun s kind next _ h => h
  · exact fun s frame _ h => h
  · exact fun s index count hi _ h => h

lemma unpeeked_popFrame (kind : ContainerKind) : Moves Unpeeked (popFrame kind) := by
  intro s hs
  rcases popFrame_cases s kind with ⟨d, hd, definite, -, -, h⟩ | ⟨-, e, h⟩ | ⟨-, -, h⟩
  · rw [h]
    exact hs
  · rw [h]
    exact hs
  · rw [h]
    exact hs

/-- After a token has been taken none is pending. -/
lemma takeToken_lookahead {s t : CborDecoder} {token : Token}
    (h : takeToken s = (.ok token, t)) : t.lookahead = none := by
  rcases hl : s.lookahead with _ | pending
  · rw [takeToken_none s hl] at h
    have := primitive_unpeeked.readToken s hl
    rwa [h] at this
  · rw [takeToken_some s hl] at h
    cases h
    rfl

/-! ## Actions that take input when they succeed -/

/-- When `m` succeeds there is less input left. -/
def Advances {α : Type} (m : Dec α) : Prop := ∀ s a t, m s = (.ok a, t) → t.rest < s.rest

/-- When `m` takes input from `s`, so does every successful run of it with what follows. -/
lemma rest_lt_of_bind {α β : Type} {m : Dec α} {f : α → Dec β} {s u : CborDecoder} {b : β}
    (hm : ∀ a t, m s = (.ok a, t) → t.rest < s.rest) (hf : ∀ a, Moves Forward (f a))
    (h : (m >>= f) s = (.ok b, u)) : u.rest < s.rest := by
  obtain ⟨a, t, h1, h2⟩ := bind_eq_ok.mp h
  have hforward := hf a t
  rw [h2] at hforward
  exact hforward.rest_le.trans_lt (hm a t h1)

lemma advances_bind_left {α β : Type} {m : Dec α} {f : α → Dec β} (hm : Advances m)
    (hf : ∀ a, Moves Forward (f a)) : Advances (m >>= f) :=
  fun s _ _ h => rest_lt_of_bind (hm s) hf h

lemma HeadRead.rest_lt {s t : CborDecoder} {major : ℕ} {argument : HeadArg}
    (h : HeadRead s major argument t) : t.rest < s.rest := by
  obtain ⟨byte, hbyte, -⟩ := h.byte
  obtain ⟨n, hn, rfl⟩ := h.moved
  have := (List.getElem?_eq_some_iff.mp hbyte).1
  simp only [CborDecoder.rest]
  omega

lemma advances_readHead : Advances readHead := by
  intro s a t h
  rcases readHead_cases s with ⟨major, argument, u, heq, hread⟩ | ⟨u, heq⟩
  · rw [heq] at h
    cases h
    exact hread.rest_lt
  · rw [heq] at h
    cases h

lemma advances_tokenRound (u : Unit) : Advances (tokenRound u) :=
  advances_bind_left advances_readHead fun _ => primitive_forward.tokenOf _ _

lemma advances_readToken : Advances readToken := by
  intro s token t h
  rw [readToken, get_bind_run, iterate] at h
  refine advances_bind_left (advances_tokenRound ()) (fun x => ?_) s token t h
  cases x with
  | inl u => exact primitive_forward.iterate primitive_forward.tokenRound _ _
  | inr token => exact primitive_forward.pure _

/-- Taking a token that is not pending takes input. -/
lemma takeToken_rest_lt {s t : CborDecoder} {token : Token} (hs : s.lookahead = none)
    (h : takeToken s = (.ok token, t)) : t.rest < s.rest := by
  rw [takeToken_none s hs] at h
  exact advances_readToken s token t h

/-- A round of the loop over chunks that asks for another one takes input. -/
lemma chunkRound_rest_lt {major : ℕ} {wrongChunk invalidLength : String}
    {out out' : List UInt8} {s t : CborDecoder}
    (h : chunkRound major wrongChunk invalidLength out s = (.ok (.inl out'), t)) :
    t.rest < s.rest := by
  obtain ⟨byte, u, hpeek, hround⟩ := bind_eq_ok.mp h
  have hu : u = s := by
    rcases peekByte_cases s with ⟨_, -, -, heq⟩ | ⟨-, e, heq⟩ <;> rw [heq] at hpeek <;> cases hpeek
    rfl
  subst hu
  by_cases hbreak : byte = 0xff
  · rw [if_pos hbreak] at hround
    obtain ⟨_, _, _, hout⟩ := bind_eq_ok.mp hround
    cases hout
  · rw [if_neg hbreak] at hround
    exact advances_bind_left advances_readHead
      (fun _ => primitive_forward.bind (primitive_forward.takeChunk _ _ _ _) fun _ =>
        primitive_forward.pure _) _ _ _ hround

end RustBinary.Cbor
