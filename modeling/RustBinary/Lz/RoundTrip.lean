import RustBinary.Lz.Bits
import RustBinary.Lib.Lz77

/-!
# What is compressed comes back

Every entry of the hash chains is a position that has been passed, so that a candidate lies behind
the position and the comparison makes it a repetition.  The rounds of the matcher then write tokens
that describe the input, and the rounds of the decoder follow the tokens.
-/

namespace RustBinary.Lz

open Lib Lib.Act Lib.Tape

/-! ## Tokens as bits -/

/-- The bits of a token. -/
def tokenBits : Lib.Token UInt8 → List Bool
  | .literal byte => false :: toBits 8 byte.toNat
  | .copy length distance => true :: (toBits 8 (length - minMatch) ++ toBits 15 (distance - 1))

/-- The fields of a token have room for it. -/
def InRange : Lib.Token UInt8 → Prop
  | .literal _ => True
  | .copy length distance => minMatch ≤ length ∧ length ≤ maxMatch ∧ distance ≤ windowSize

/-! ## Candidates -/

variable {input : List UInt8}

lemma hash3_drop {i : ℕ} (h : i + minMatch ≤ input.length) :
    ∃ hash, hash3 (input.drop i) = .ok hash ∧ hash < hashBuckets := by
  rw [minMatch] at h
  rw [List.drop_eq_getElem_cons (by omega), List.drop_eq_getElem_cons (by omega),
    List.drop_eq_getElem_cons (by omega)]
  refine ⟨_, rfl, ?_⟩
  rw [UInt64.toNat_and, show (0xffff : UInt64).toNat = 2 ^ 16 - 1 from rfl,
    Nat.and_two_pow_sub_one_eq_mod, hashBuckets]
  exact Nat.mod_lt _ (by decide)

/-- The entries of the chains are positions before `p`. -/
structure Chained (input : List UInt8) (p : ℕ) (s : Compressor) : Prop where
  head_length : s.head.length = hashBuckets
  prev_length : s.prev.length = input.length
  head_lt : ∀ c ∈ s.head, c ≠ u32Max → c.toNat < p
  prev_lt : ∀ c ∈ s.prev, c ≠ u32Max → c.toNat < p

variable {s : Compressor} {p i : ℕ}

/-- An insertion adds the position itself. -/
lemma Chained.insert (h : Chained input i s) :
    ∃ t, insert input i s = (.ok (), t) ∧ Chained input (i + 1) t ∧ t.output = s.output ∧
      t.pos = s.pos := by
  have hgrow : ∀ cs : List UInt32, (∀ c ∈ cs, c ≠ u32Max → c.toNat < i) →
      ∀ c ∈ cs, c ≠ u32Max → c.toNat < i + 1 := by
    intro cs hcs c hc hne
    have := hcs c hc hne
    omega
  rw [Lz.insert]
  split
  · next hroom =>
      obtain ⟨hash, hhash, hlt⟩ := hash3_drop hroom
      rw [← h.head_length] at hlt
      rw [get_bind_run, hhash, bind_of_ok (call_run _ s), List.getElem?_eq_getElem hlt,
        bind_of_ok (show call (Outcome.orPanic (some _)) s = (.ok _, s) from rfl), modify_run]
      refine ⟨_, rfl, ⟨?_, ?_, ?_, ?_⟩, rfl, rfl⟩
      · rw [List.length_set, h.head_length]
      · rw [List.length_set, h.prev_length]
      · intro c hc hne
        obtain hc | rfl := List.mem_or_eq_of_mem_set hc
        · exact hgrow _ h.head_lt c hc hne
        · have hmod := Nat.mod_le i (2 ^ 32)
          rw [UInt32.toNat_ofNat']
          omega
      · intro c hc hne
        obtain hc | rfl := List.mem_or_eq_of_mem_set hc
        · exact hgrow _ h.prev_lt c hc hne
        · exact hgrow _ h.head_lt _ (List.getElem_mem hlt) hne
  · exact ⟨s, rfl, ⟨h.head_length, h.prev_length, hgrow _ h.head_lt, hgrow _ h.prev_lt⟩, rfl, rfl⟩

lemma Chained.insertRange (h : Chained input p s) (count : ℕ) :
    ∃ t, insertRange input p count s = (.ok (), t) ∧ Chained input (p + count) t ∧
      t.output = s.output ∧ t.pos = s.pos := by
  induction count with
  | zero => exact ⟨s, rfl, h, rfl, rfl⟩
  | succ i ih =>
      obtain ⟨t, ht, hchained, houtput, hpos⟩ := ih
      obtain ⟨u, hu, hchained, houtput', hpos'⟩ := hchained.insert
      refine ⟨u, ?_, hchained, houtput'.trans houtput, hpos'.trans hpos⟩
      rw [Lz.insertRange, bind_of_ok ht, hu]

/-! ## Matches -/

/-- The compared bytes are equal. -/
lemma matchLength_spec (budget : ℕ) {c pos len : ℕ}
    (h : ∀ i < len, input[c + i]? = input[pos + i]?) :
    matchLength input c pos budget len ≤ len + budget ∧
      ∀ i < matchLength input c pos budget len, input[c + i]? = input[pos + i]? := by
  induction budget generalizing len with
  | zero => exact ⟨le_refl _, h⟩
  | succ budget ih =>
      rw [matchLength]
      split
      · next heq =>
          have hmore : ∀ i < len + 1, input[c + i]? = input[pos + i]? := by
            intro i hi
            obtain hi | rfl := Nat.lt_succ_iff_lt_or_eq.mp hi
            · exact h i hi
            · exact heq
          obtain ⟨hle, hsame⟩ := ih hmore
          exact ⟨by omega, hsame⟩
      · exact ⟨by omega, h⟩

/-- The length and the distance are a match at the position, if there is any length. -/
structure Match (input : List UInt8) (pos maxLen : ℕ) (best : ℕ × ℕ) : Prop where
  length_le : best.1 ≤ maxLen
  repeats : 0 < best.1 → Repeats input pos best.1 best.2 ∧ best.2 ≤ windowSize

lemma match_nothing (pos maxLen : ℕ) : Match input pos maxLen (0, 0) :=
  ⟨Nat.zero_le _, fun h => absurd h (lt_irrefl 0)⟩

/-- The search finds matches only. -/
lemma search_spec {prev : List UInt32} {pos maxLen : ℕ} (windowStart chain : ℕ)
    {candidate : UInt32} {best : ℕ × ℕ} (hlength : prev.length = input.length)
    (hprev : ∀ c ∈ prev, c ≠ u32Max → c.toNat < pos) (hroom : pos + maxLen ≤ input.length)
    (hcandidate : candidate ≠ u32Max → candidate.toNat < pos)
    (hbest : Match input pos maxLen best) :
    ∃ best', search input prev pos maxLen windowStart chain candidate best = .ok best' ∧
      Match input pos maxLen best' := by
  induction chain generalizing candidate best with
  | zero => exact ⟨best, rfl, hbest⟩
  | succ chain ih =>
      rw [search]
      split
      · exact ⟨best, rfl, hbest⟩
      next hne =>
      have hlt := hcandidate hne
      have hindex : candidate.toNat < prev.length := by omega
      -- the chain goes on with a position that was inserted
      have hnext : ∀ best, Match input pos maxLen best →
          ∃ best', (do
            let candidate ← Outcome.orPanic prev[candidate.toNat]?
            search input prev pos maxLen windowStart chain candidate best) = .ok best' ∧
              Match input pos maxLen best' := by
        intro best hbest
        rw [List.getElem?_eq_getElem hindex]
        exact ih (hprev _ (List.getElem_mem hindex)) hbest
      dsimp only
      split
      · exact ⟨best, rfl, hbest⟩
      split
      · exact hnext best hbest
      split
      · next hwindow hend =>
          split
          · next hbetter =>
              have hnone : ∀ i < 0, input[candidate.toNat + i]? = input[pos + i]? :=
                fun i hi => absurd hi (Nat.not_lt_zero i)
              obtain ⟨hle, hsame⟩ :=
                matchLength_spec (min maxLen (input.length - candidate.toNat)) hnone
              have hmatch : Match input pos maxLen
                  (matchLength input candidate.toNat pos
                    (min maxLen (input.length - candidate.toNat)) 0, pos - candidate.toNat) := by
                refine ⟨by dsimp only; omega, fun _ => ⟨⟨?_, ?_, ?_, ?_⟩, ?_⟩⟩
                · show 0 < pos - candidate.toNat
                  omega
                · exact Nat.sub_le _ _
                · show pos + matchLength _ _ _ _ _ ≤ _
                  omega
                · rw [show pos - (pos - candidate.toNat) = candidate.toNat by omega]
                  exact hsame
                · show pos - candidate.toNat ≤ windowSize
                  omega
              split
              · exact ⟨_, rfl, hmatch⟩
              · exact hnext _ hmatch
          · exact hnext best hbest
      · exact hnext best hbest

lemma Chained.findMatch (h : Chained input s.pos s) (maxChain : ℕ) (hpos : s.pos ≤ input.length) :
    ∃ best, findMatch input maxChain s = .ok best ∧
      Match input s.pos (min maxMatch (input.length - s.pos)) best := by
  rw [Lz.findMatch]
  split
  · next hroom =>
      have hend : s.pos + minMatch ≤ input.length := by omega
      obtain ⟨hash, hhash, hlt⟩ := hash3_drop hend
      rw [← h.head_length] at hlt
      rw [hhash, Outcome.ok_bind, List.getElem?_eq_getElem hlt]
      exact search_spec (s.pos - windowSize) maxChain h.prev_length h.prev_lt (by omega)
        (h.head_lt _ (List.getElem_mem hlt)) (match_nothing _ _)
  · exact ⟨(0, 0), rfl, match_nothing _ _⟩

/-! ## The rounds of the matcher -/

/-- From `s`, where `bits` have been written, to `t` a token is written and its positions are
inserted. -/
structure Emits (input : List UInt8) (s : Compressor) (bits : List Bool) (token : Lib.Token UInt8)
    (t : Compressor) : Prop where
  chained : Chained input t.pos t
  inRange : InRange token
  stands : t.output.Stands (bits ++ tokenBits token)
  pos_lt : s.pos < t.pos
  pos_le : t.pos ≤ input.length
  describes : ∀ tokens, Describes input t.pos tokens → Describes input s.pos (token :: tokens)

lemma Chained.emitMatch (h : Chained input s.pos s) {bits : List Bool}
    (hbits : s.output.Stands bits) {best : ℕ × ℕ}
    (hbest : Match input s.pos (min maxMatch (input.length - s.pos)) best)
    (hmin : minMatch ≤ best.1) :
    ∃ t, Lz.emitMatch input best.1 best.2 s = (.ok (), t) ∧
      Emits input s bits (.copy best.1 best.2) t := by
  have hpos : 0 < best.1 := lt_of_lt_of_le (by decide) hmin
  have hlen := hbest.length_le
  obtain ⟨hrepeats, hwindow⟩ := hbest.repeats hpos
  have hend := hrepeats.end_le
  have hdist := hrepeats.pos_distance
  have hstop : min (s.pos + best.1) input.length = s.pos + best.1 := by omega
  have hlenNat : (UInt32.ofNat (best.1 - minMatch)).toNat = best.1 - minMatch := by
    rw [UInt32.toNat_ofNat']
    rw [maxMatch] at hlen
    omega
  have hdistNat : (UInt32.ofNat (best.2 - 1)).toNat = best.2 - 1 := by
    rw [UInt32.toNat_ofNat']
    rw [windowSize] at hwindow
    omega
  have hflag := hbits.writeBit true
  have hlength := hflag.writeBits (UInt32.ofNat (best.1 - minMatch)) (show 0 < 8 by decide)
    (by decide) (by rw [hlenNat]; rw [maxMatch] at hlen; rw [minMatch]; omega)
  have hstands := hlength.writeBits (UInt32.ofNat (best.2 - 1)) (show 0 < 15 by decide)
    (by decide) (by rw [hdistNat]; rw [windowSize] at hwindow; omega)
  rw [hlenNat, hdistNat, List.append_assoc, List.append_assoc] at hstands
  have hwritten : Chained input s.pos { s with
      output := ((s.output.writeBit true).writeBits (UInt32.ofNat (best.1 - minMatch)) 8).writeBits
        (UInt32.ofNat (best.2 - 1)) 15 } := ⟨h.head_length, h.prev_length, h.head_lt, h.prev_lt⟩
  obtain ⟨t, ht, hchained, houtput, -⟩ := hwritten.insertRange best.1
  refine ⟨{ t with pos := s.pos + best.1 }, ?_, ?_, ⟨hmin, by omega, hwindow⟩, ?_,
    Nat.lt_add_of_pos_right hpos, hend, fun tokens => .copy hpos hrepeats⟩
  · rw [Lz.emitMatch, modify_bind_run, get_bind_run]
    dsimp only
    rw [hstop, Nat.add_sub_cancel_left, bind_of_ok ht, modify_run]
  · exact ⟨hchained.head_length, hchained.prev_length, hchained.head_lt, hchained.prev_lt⟩
  · show t.output.Stands _
    rw [houtput]
    exact hstands

lemma Chained.emitLiteral (h : Chained input s.pos s) {bits : List Bool}
    (hbits : s.output.Stands bits) (hpos : s.pos < input.length) :
    ∃ t, Lz.emitLiteral input s = (.ok (), t) ∧ Emits input s bits (.literal input[s.pos]) t := by
  have hbyte : (input[s.pos]).toUInt32.toNat = (input[s.pos]).toNat := UInt8.toNat_toUInt32 _
  have hflag := hbits.writeBit false
  have hstands := hflag.writeBits (input[s.pos]).toUInt32 (show 0 < 8 by decide) (by decide)
    (by rw [hbyte]; exact UInt8.toNat_lt _)
  rw [hbyte, List.append_assoc] at hstands
  have hwritten : Chained input s.pos { s with
      output := (s.output.writeBit false).writeBits (input[s.pos]).toUInt32 8 } :=
    ⟨h.head_length, h.prev_length, h.head_lt, h.prev_lt⟩
  obtain ⟨t, ht, hchained, houtput, htpos⟩ := hwritten.insert
  refine ⟨{ t with pos := s.pos + 1 }, ?_, ?_, trivial, ?_, Nat.lt_succ_self _, hpos,
    fun tokens => .literal (List.getElem?_eq_getElem hpos)⟩
  · rw [Lz.emitLiteral, get_bind_run, List.getElem?_eq_getElem hpos,
      bind_of_ok (show call (Outcome.orPanic (some _)) s = (.ok _, s) from rfl), modify_bind_run,
      bind_of_ok ht, modify_run, htpos]
  · exact ⟨hchained.head_length, hchained.prev_length, hchained.head_lt, hchained.prev_lt⟩
  · show t.output.Stands _
    rw [houtput]
    exact hstands

/-- A round before the end emits a token. -/
lemma Chained.round (h : Chained input s.pos s) (maxChain : ℕ) {bits : List Bool}
    (hbits : s.output.Stands bits) (hpos : s.pos < input.length) :
    ∃ token t, Lz.round input maxChain s = (.ok (.inl ()), t) ∧ Emits input s bits token t := by
  obtain ⟨best, hfind, hbest⟩ := h.findMatch maxChain hpos.le
  rw [Lz.round, get_bind_run, if_pos hpos, hfind, bind_of_ok (call_run _ s)]
  by_cases hmin : minMatch ≤ best.1
  · obtain ⟨t, ht, hemits⟩ := h.emitMatch hbits hbest hmin
    exact ⟨_, t, by rw [if_pos hmin, bind_of_ok ht]; rfl, hemits⟩
  · obtain ⟨t, ht, hemits⟩ := h.emitLiteral hbits hpos
    exact ⟨_, t, by rw [if_neg hmin, bind_of_ok ht]; rfl, hemits⟩

lemma round_end (maxChain : ℕ) (h : input.length ≤ s.pos) :
    Lz.round input maxChain s = (.ok (.inr s.output.finish), s) := by
  rw [Lz.round, get_bind_run, if_neg (Nat.not_lt.mpr h), pure_run]

/-- The main loop ends, and the tokens it has written describe the rest of the input. -/
lemma Chained.rounds (maxChain fuel : ℕ) {bits : List Bool} (h : Chained input s.pos s)
    (hbits : s.output.Stands bits) (hpos : s.pos ≤ input.length)
    (hfuel : input.length - s.pos < fuel) :
    ∃ tokens out t n, iterate (fun _ => Lz.round input maxChain) fuel () s = (.ok out, t) ∧
      Describes input s.pos tokens ∧ (∀ token ∈ tokens, InRange token) ∧
      unpack out = bits ++ tokens.flatMap tokenBits ++ List.replicate n false := by
  induction fuel generalizing s bits with
  | zero => exact absurd hfuel (Nat.not_lt_zero _)
  | succ fuel ih =>
      rw [iterate]
      obtain hlt | heq := Nat.lt_or_eq_of_le hpos
      · obtain ⟨token, t, hround, hemits⟩ := h.round maxChain hbits hlt
        have hmove := hemits.pos_lt
        obtain ⟨tokens, out, u, n, hrest, hdescribes, hrange, hout⟩ :=
          ih hemits.chained hemits.stands hemits.pos_le (by omega)
        refine ⟨token :: tokens, out, u, n, by rw [bind_of_ok hround]; exact hrest,
          hemits.describes tokens hdescribes, ?_, ?_⟩
        · rintro other (_ | ⟨_, hmem⟩)
          · exact hemits.inRange
          · exact hrange other hmem
        · rw [hout, List.flatMap_cons, List.append_assoc bits]
      · obtain ⟨n, -, hout⟩ := hbits.unpack_finish
        refine ⟨[], _, s, n, by rw [bind_of_ok (round_end maxChain heq.ge)]; rfl,
          by rw [heq]; exact .done, ?_, ?_⟩
        · intro token hmem
          exact absurd hmem List.not_mem_nil
        · rw [hout, List.flatMap_nil, List.append_nil]

/-- What `compress` writes: the length and tokens that describe the input. -/
lemma compress_spec (level : ℤ) (hmin : minMatch ≤ input.length) :
    ∃ tokens out n, compress input level = .ok out ∧ Describes input 0 tokens ∧
      (∀ token ∈ tokens, InRange token) ∧
      unpack out = toBits 32 (UInt32.ofNat input.length).toNat ++ tokens.flatMap tokenBits ++
        List.replicate n false := by
  have hempty : ∀ n, ∀ c ∈ List.replicate n u32Max, c ≠ u32Max → c.toNat < 0 :=
    fun n c hc hne => absurd (List.eq_of_mem_replicate hc) hne
  let start : Compressor := ⟨List.replicate hashBuckets u32Max,
    List.replicate input.length u32Max, BitWriter.new.writeU32 (UInt32.ofNat input.length), 0⟩
  have hchained : Chained input start.pos start :=
    ⟨List.length_replicate, List.length_replicate, hempty _, hempty _⟩
  obtain ⟨tokens, out, t, n, hrun, hdescribes, hrange, hout⟩ :=
    Chained.rounds (min (4 + (max 1 (min level 22)).toNat * 4) 96) (input.length + 1) hchained
      (BitWriter.stands_writeU32 (UInt32.ofNat input.length)) (Nat.zero_le _)
      (Nat.lt_succ_self input.length)
  refine ⟨tokens, out, n, ?_, hdescribes, hrange, hout⟩
  rw [compress, if_neg (Nat.not_lt.mpr hmin)]
  dsimp only
  rw [hrun]

/-! ## The rounds of the decoder -/

lemma copyBack_of_repeats {pos length distance : ℕ} (h : Repeats input pos length distance)
    {count : ℕ} (hcount : count ≤ length) :
    copyBack pos distance count (input.take pos) = .ok (input.take (pos + count)) := by
  induction count with
  | zero => rfl
  | succ i ih =>
      have hend := h.end_le
      have hsource := h.getElem?_take (i := i) (by omega)
      rw [List.getElem?_eq_getElem (show pos + i < input.length by omega)] at hsource
      rw [copyBack, ih (by omega), Outcome.ok_bind, hsource]
      show Outcome.ok _ = _
      rw [take_append_getElem? (List.getElem?_eq_getElem _), Nat.add_assoc]

lemma reads_literal {declared : ℕ} {output : List UInt8} (h : output.length < declared)
    (byte : UInt8) :
    Reads (decodeToken declared output) (.inl (output ++ [byte])) (tokenBits (.literal byte)) := by
  have hbyte : (UInt32.ofNat (byte.toNat % 2 ^ 8)).toUInt8 = byte := by
    rw [← UInt8.toNat_inj, UInt32.toNat_toUInt8, UInt32.toNat_ofNat']
    have := byte.toNat_lt
    omega
  have hread := (BitReader.reads_readBits byte.toNat (show 8 ≤ 32 by decide)).bind_pure
    (f := fun byte => (Sum.inl (output ++ [byte.toUInt8]) : List UInt8 ⊕ List UInt8))
  rw [hbyte] at hread
  rw [decodeToken, if_pos h]
  exact (BitReader.reads_readBit false).bind hread

lemma reads_copy {pos length distance : ℕ} (hrange : InRange (.copy length distance))
    (h : Repeats input pos length distance) :
    Reads (decodeToken input.length (input.take pos)) (.inl (input.take (pos + length)))
      (tokenBits (.copy length distance)) := by
  obtain ⟨hmin, hmax, hwindow⟩ := hrange
  have hend := h.end_le
  have hpos := h.pos_distance
  have hle := h.distance_le
  have hlen : (input.take pos).length = pos := by
    rw [List.length_take]
    omega
  have hlength : (UInt32.ofNat ((length - minMatch) % 2 ^ 8)).toNat + minMatch = length := by
    rw [UInt32.toNat_ofNat']
    rw [maxMatch] at hmax
    rw [minMatch] at hmin ⊢
    omega
  have hdistance : (UInt32.ofNat ((distance - 1) % 2 ^ 15)).toNat + 1 = distance := by
    rw [UInt32.toNat_ofNat']
    rw [windowSize] at hwindow
    omega
  rw [decodeToken, if_pos (by rw [minMatch] at hmin; omega)]
  refine (BitReader.reads_readBit true).bind
    ((BitReader.reads_readBits (length - minMatch) (show 8 ≤ 32 by decide)).bind ?_)
  have hread : Reads (if (input.take pos).length < distance then throw .invalidDistance
      else do
        let output ← call (copyBack (input.take pos).length distance length (input.take pos))
        pure (.inl output) : Act BitReader LzError (List UInt8 ⊕ List UInt8))
      (.inl (input.take (pos + length))) ([] : List Bool) := by
    rw [hlen, if_neg (by omega), copyBack_of_repeats h (le_refl _)]
    exact Reads.pure _
  have hdist := (BitReader.reads_readBits (distance - 1) (show 15 ≤ 32 by decide)).bind
    (f := fun distance : UInt32 => (if (input.take pos).length < distance.toNat + 1 then
      throw .invalidDistance
      else do
        let output ← call (copyBack (input.take pos).length (distance.toNat + 1) length
          (input.take pos))
        pure (.inl output) : Act BitReader LzError (List UInt8 ⊕ List UInt8)))
    (by rw [hdistance]; exact hread)
  rw [List.append_nil] at hdist
  show Reads (_ >>= fun distance : UInt32 => _) _ _
  rw [hlength]
  exact hdist

lemma describes_rounds {tokens : List (Lib.Token UInt8)} {pos fuel : ℕ}
    (h : Describes input pos tokens) (hrange : ∀ token ∈ tokens, InRange token)
    (hfuel : input.length - pos < fuel) :
    Reads (iterate (decodeToken input.length) fuel (input.take pos)) input
      (tokens.flatMap tokenBits) := by
  induction h generalizing fuel with
  | done =>
      obtain ⟨fuel, rfl⟩ := Nat.exists_eq_succ_of_ne_zero (Nat.ne_of_gt (Nat.zero_lt_of_lt hfuel))
      have hend : decodeToken input.length (input.take input.length) =
          (pure (.inr input) : Act BitReader LzError (List UInt8 ⊕ List UInt8)) := by
        rw [decodeToken, List.take_length, if_neg (lt_irrefl _)]
      rw [iterate, hend]
      exact Reads.pure input
  | @literal pos byte tokens hget rest ih =>
      obtain ⟨hlt, -⟩ := List.getElem?_eq_some_iff.mp hget
      have hlen : (input.take pos).length < input.length := by
        rw [List.length_take]
        omega
      obtain ⟨fuel, rfl⟩ := Nat.exists_eq_succ_of_ne_zero (Nat.ne_of_gt (Nat.zero_lt_of_lt hfuel))
      have hround := reads_literal hlen byte
      rw [take_append_getElem? hget] at hround
      rw [iterate, List.flatMap_cons]
      exact hround.bind (ih (fun token hmem => hrange token (List.mem_cons_of_mem _ hmem))
        (by omega))
  | copy hpos hrepeats rest ih =>
      obtain ⟨fuel, rfl⟩ := Nat.exists_eq_succ_of_ne_zero (Nat.ne_of_gt (Nat.zero_lt_of_lt hfuel))
      have hend := hrepeats.end_le
      have hround := reads_copy (hrange _ List.mem_cons_self) hrepeats
      rw [iterate, List.flatMap_cons]
      exact hround.bind (ih (fun token hmem => hrange token (List.mem_cons_of_mem _ hmem))
        (by omega))

/-- The decoder follows the tokens. -/
lemma decompress_of_describes {out : List UInt8} {tokens : List (Lib.Token UInt8)} {n padding : ℕ}
    (hlength : input.length < 2 ^ 32) (h : Describes input 0 tokens)
    (hrange : ∀ token ∈ tokens, InRange token)
    (hbits : unpack out = toBits 32 input.length ++ tokens.flatMap tokenBits ++
      List.replicate padding false) (hn : input.length ≤ n) : decompress out n = .ok input := by
  have hnat : (UInt32.ofNat input.length).toNat = input.length := by
    rw [UInt32.toNat_ofNat', Nat.mod_eq_of_lt hlength]
  rw [List.append_assoc] at hbits
  have hread : Reads (do
      let declared ← BitReader.readU32
      if n < declared.toNat then throw .lengthMismatch
      else
        let output ← iterate (decodeToken declared.toNat) (declared.toNat + 1) []
        if output.length ≠ declared.toNat then throw .lengthMismatch
        else pure output) input (toBits 32 input.length ++ tokens.flatMap tokenBits) := by
    refine (BitReader.reads_readU32 input.length hlength).bind ?_
    rw [hnat, if_neg (Nat.not_lt.mpr hn)]
    have hfuel : input.length - 0 < input.length + 1 := Nat.lt_succ_self _
    have hend : (if input.length ≠ input.length then throw .lengthMismatch
        else pure input : Act BitReader LzError (List UInt8)) = pure input :=
      if_neg (not_not.mpr rfl)
    have hwhole := (describes_rounds h hrange hfuel).bind (f := fun output =>
      (if output.length ≠ input.length then throw .lengthMismatch
        else pure output : Act BitReader LzError (List UInt8)))
      (by rw [hend]; exact Reads.pure input)
    rwa [List.append_nil] at hwhole
  have hhere : Here (BitReader.new out) (toBits 32 input.length ++ tokens.flatMap tokenBits) := by
    refine ⟨?_, fun limit h => nomatch h⟩
    have hslice := slice_append [] (toBits 32 input.length ++ tokens.flatMap tokenBits)
      (List.replicate padding false)
    rw [List.nil_append, List.append_assoc, ← hbits] at hslice
    exact hslice
  exact congrArg Prod.fst (hread _ hhere)

/-- Compression returns, and what it packs is unpacked within every bound that is at least the
length of the input. -/
lemma exists_compress (input : List UInt8) (level : ℤ) :
    ∃ out, compress input level = .ok out ∧
      (input.length < 2 ^ 32 → out ≠ [] → ∀ n, input.length ≤ n →
        decompress out n = .ok input) := by
  by_cases hmin : minMatch ≤ input.length
  · obtain ⟨tokens, out, padding, hrun, hdescribes, hrange, hbits⟩ := compress_spec level hmin
    refine ⟨out, hrun, fun hlength _ n hn => ?_⟩
    rw [UInt32.toNat_ofNat', Nat.mod_eq_of_lt hlength] at hbits
    exact decompress_of_describes hlength hdescribes hrange hbits hn
  · refine ⟨[], by rw [compress, if_pos (Nat.lt_of_not_le hmin)], ?_⟩
    intro _ hne
    exact absurd rfl hne

/-- Compression at every level returns, and what it packs is unpacked to the input, within every
bound that is at least the length of the input. -/
theorem compress_roundTrip (input : List UInt8) (level : ℤ) :
    ∃ out, compress input level = .ok out ∧
      (input.length < 2 ^ 32 → out ≠ [] → ∀ n, input.length ≤ n →
        decompress out n = .ok input) :=
  exists_compress input level

end RustBinary.Lz
