import RustBinary.Lz.RoundTrip

/-!
# The greedy parse

What the matcher finds, said without its chains: at every position the longest repetition among
the nearest earlier positions that have the hash of the position.  The chains hold these positions,
the nearest first, so that the tokens that are written, and with them the size of the packed
stream, are those of this parse.
-/

namespace RustBinary.Lz

open Lib Lib.Act Lib.Tape

variable {input : List UInt8}

/-! ## The parse -/

/-- The hash of the three bytes at `i`, if there are three. -/
def hashAt (input : List UInt8) (i : ℕ) : Option ℕ :=
  if i + minMatch ≤ input.length then (hash3 (input.drop i)).ok? else none

/-- The positions before `pos` with a hash, the nearest first. -/
def nearest (input : List UInt8) (hash : ℕ) : ℕ → List ℕ
  | 0 => []
  | pos + 1 =>
      if hashAt input pos = some hash then pos :: nearest input hash pos
      else nearest input hash pos

/-- A position that is in the window of `pos`, and that a chain can name. -/
def Visible (pos c : ℕ) : Prop := pos ≤ c + windowSize ∧ c < u32Max.toNat

instance (pos c : ℕ) : Decidable (Visible pos c) := inferInstanceAs (Decidable (_ ∧ _))

/-- The longest repetition at `pos` of one of the positions, up to `maxLen` bytes. -/
def longest (input : List UInt8) (pos maxLen : ℕ) (cs : List ℕ) : ℕ :=
  (cs.map fun c => matchLength input c pos maxLen 0).foldr max 0

/-- The length of the match at `pos`, among `maxChain` candidates. -/
def bestLength (input : List UInt8) (maxChain pos : ℕ) : ℕ :=
  match hashAt input pos with
  | none => 0
  | some hash =>
      longest input pos (min maxMatch (input.length - pos))
        (((nearest input hash pos).takeWhile fun c => Visible pos c).take maxChain)

/-- The bits of the tokens from `pos` on, of which there are at most as many as rounds: 24 for a
match, and 9 for a literal. -/
def parseBits (input : List UInt8) (maxChain : ℕ) : ℕ → ℕ → ℕ
  | 0, _ => 0
  | rounds + 1, pos =>
      if input.length ≤ pos then 0
      else if minMatch ≤ bestLength input maxChain pos then
        24 + parseBits input maxChain rounds (pos + bestLength input maxChain pos)
      else 9 + parseBits input maxChain rounds (pos + 1)

/-- The number of candidates at a level. -/
def chainBudget (level : ℤ) : ℕ := min (4 + (max 1 (min level 22)).toNat * 4) 96

/-- The size of the packed stream: the length of the input and the tokens, in whole bytes. -/
def packedSize (input : List UInt8) (level : ℤ) : ℕ :=
  4 + (parseBits input (chainBudget level) input.length 0 + 7) / 8

/-! ## The chains -/

/-- A position in a chain, or its end. -/
def link : Option ℕ → UInt32
  | none => u32Max
  | some i => UInt32.ofNat i

/-- The chains hold the positions before `p` by their hashes, the nearest first. -/
structure Linked (input : List UInt8) (p : ℕ) (s : Compressor) : Prop where
  head_eq : ∀ hash < hashBuckets, s.head[hash]? = some (link (nearest input hash p).head?)
  prev_eq : ∀ i < p, ∀ hash, hashAt input i = some hash →
    s.prev[i]? = some (link (nearest input hash i).head?)

lemma hashAt_of_room {i : ℕ} (h : i + minMatch ≤ input.length) :
    ∃ hash, hash3 (input.drop i) = .ok hash ∧ hashAt input i = some hash ∧ hash < hashBuckets := by
  obtain ⟨hash, hhash, hlt⟩ := hash3_drop h
  exact ⟨hash, hhash, by rw [hashAt, if_pos h, hhash]; rfl, hlt⟩

lemma hashAt_of_no_room {i : ℕ} (h : ¬ i + minMatch ≤ input.length) : hashAt input i = none :=
  if_neg h

/-- The rest of a chain is the chain of its first position. -/
lemma nearest_cons {hash pos c : ℕ} {rest : List ℕ} (h : nearest input hash pos = c :: rest) :
    c < pos ∧ hashAt input c = some hash ∧ rest = nearest input hash c := by
  induction pos with
  | zero => cases h
  | succ pos ih =>
      rw [nearest] at h
      split at h
      · next hhash =>
          cases h
          exact ⟨Nat.lt_succ_self _, hhash, rfl⟩
      · obtain ⟨hlt, hrest⟩ := ih h
        exact ⟨Nat.lt_succ_of_lt hlt, hrest⟩

/-- The chains after the insertion of a position. -/
lemma Linked.insert {i : ℕ} {s t : Compressor} (hchained : Chained input i s)
    (h : Linked input i s) (hi : i < input.length) (hrun : insert input i s = (.ok (), t)) :
    Linked input (i + 1) t := by
  rw [Lz.insert] at hrun
  split at hrun
  · next hroom =>
      obtain ⟨hash, hhash, hat, hlt⟩ := hashAt_of_room hroom
      have hfirst := h.head_eq hash hlt
      rw [get_bind_run, hhash, bind_of_ok (call_run _ s), hfirst,
        bind_of_ok (show call (Outcome.orPanic (some _)) s = (.ok _, s) from rfl), modify_run,
        Prod.mk.injEq] at hrun
      obtain ⟨-, rfl⟩ := hrun
      refine ⟨fun other hother => ?_, fun j hj other hat' => ?_⟩
      · show (s.head.set hash (UInt32.ofNat i))[other]? = _
        rw [nearest, List.getElem?_set, hat]
        by_cases heq : hash = other
        · subst heq
          rw [if_pos rfl, if_pos (hchained.head_length ▸ hlt), if_pos rfl]
          rfl
        · rw [if_neg heq, if_neg (fun hsome => heq (Option.some.inj hsome))]
          exact h.head_eq other hother
      · show (s.prev.set i (link (nearest input hash i).head?))[j]? = _
        rw [List.getElem?_set]
        by_cases heq : i = j
        · subst heq
          rw [hat] at hat'
          cases hat'
          rw [if_pos rfl, if_pos (hchained.prev_length ▸ hi)]
        · rw [if_neg heq]
          exact h.prev_eq j (by omega) other hat'
  · next hroom =>
      rw [pure_run, Prod.mk.injEq] at hrun
      obtain ⟨-, rfl⟩ := hrun
      have hat := hashAt_of_no_room hroom
      refine ⟨fun other hother => ?_, fun j hj other hat' => ?_⟩
      · rw [nearest, hat, if_neg (by simp)]
        exact h.head_eq other hother
      · by_cases heq : j = i
        · subst heq
          rw [hat] at hat'
          cases hat'
        · exact h.prev_eq j (by omega) other hat'

lemma Linked.insertRange {p count : ℕ} {s t : Compressor} (hchained : Chained input p s)
    (h : Linked input p s) (hend : p + count ≤ input.length)
    (hrun : insertRange input p count s = (.ok (), t)) : Linked input (p + count) t := by
  induction count generalizing t with
  | zero =>
      rw [Lz.insertRange, pure_run, Prod.mk.injEq] at hrun
      obtain ⟨-, rfl⟩ := hrun
      exact h
  | succ i ih =>
      obtain ⟨u, hu, hchained', -⟩ := hchained.insertRange i
      rw [Lz.insertRange, bind_of_ok hu] at hrun
      exact (ih (by omega) hu).insert hchained' (show p + i < input.length by omega) hrun

/-! ## Matches -/

lemma longest_cons (pos maxLen c : ℕ) (cs : List ℕ) :
    longest input pos maxLen (c :: cs) =
      max (matchLength input c pos maxLen 0) (longest input pos maxLen cs) := rfl

lemma matchLength_le (input : List UInt8) (c pos maxLen : ℕ) :
    matchLength input c pos maxLen 0 ≤ maxLen := by
  have hnone : ∀ i < 0, input[c + i]? = input[pos + i]? := fun i hi => absurd hi (Nat.not_lt_zero i)
  have hle := (matchLength_spec maxLen hnone).1
  omega

lemma longest_le (input : List UInt8) (pos maxLen : ℕ) (cs : List ℕ) :
    longest input pos maxLen cs ≤ maxLen := by
  induction cs with
  | nil => exact Nat.zero_le _
  | cons c cs ih =>
      rw [longest_cons]
      exact max_le (matchLength_le input c pos maxLen) ih

/-- A position that is not visible ends the search. -/
lemma link_of_not_visible {pos c : ℕ} (hc : c < pos) (h : ¬ Visible pos c) :
    UInt32.ofNat c = u32Max ∨ (UInt32.ofNat c).toNat < pos - windowSize := by
  have hmax : u32Max.toNat = 2 ^ 32 - 1 := rfl
  rw [← UInt32.toNat_inj, UInt32.toNat_ofNat', hmax]
  rw [Visible, hmax] at h
  rw [windowSize] at h ⊢
  omega

lemma toNat_link {pos c : ℕ} (h : Visible pos c) :
    UInt32.ofNat c ≠ u32Max ∧ (UInt32.ofNat c).toNat = c := by
  have hlt := h.2
  have hmax : u32Max.toNat = 2 ^ 32 - 1 := rfl
  rw [hmax] at hlt
  have hnat : (UInt32.ofNat c).toNat = c := by
    rw [UInt32.toNat_ofNat']
    omega
  refine ⟨fun heq => ?_, hnat⟩
  rw [heq, hmax] at hnat
  omega

/-- The search finds the longest repetition of its candidates. -/
lemma search_longest {prev : List UInt32} {pos maxLen : ℕ} (hroom : pos + maxLen ≤ input.length)
    (hprev : ∀ i < pos, ∀ hash, hashAt input i = some hash →
      prev[i]? = some (link (nearest input hash i).head?))
    (hash chain : ℕ) {q : ℕ} {best : ℕ × ℕ} (hq : q ≤ pos) (hbest : best.1 ≤ maxLen) :
    ∃ best', search input prev pos maxLen (pos - windowSize) chain
        (link (nearest input hash q).head?) best = .ok best' ∧
      best'.1 = max best.1 (longest input pos maxLen
        (((nearest input hash q).takeWhile fun c => Visible pos c).take chain)) := by
  induction chain generalizing q best with
  | zero =>
      refine ⟨best, rfl, ?_⟩
      rw [List.take_zero]
      exact (max_eq_left (Nat.zero_le _)).symm
  | succ chain ih =>
      cases hnearest : nearest input hash q with
      | nil =>
          refine ⟨best, ?_, ?_⟩
          · rw [search, if_pos (show link ([] : List ℕ).head? = u32Max from rfl)]
          · exact (max_eq_left (Nat.zero_le _)).symm
      | cons c rest =>
          obtain ⟨hlt, hat, rfl⟩ := nearest_cons hnearest
          rw [List.head?_cons, search]
          by_cases hvisible : Visible pos c
          · obtain ⟨hne, hnat⟩ := toNat_link hvisible
            have hin := hvisible.1
            have hc : c < pos := by omega
            rw [List.takeWhile_cons_of_pos (by simpa using hvisible), List.take_succ_cons,
              longest_cons, link, if_neg hne, hnat]
            dsimp only
            rw [if_neg (by omega), if_neg (by omega), if_pos (by omega),
              Nat.min_eq_left (show maxLen ≤ input.length - c by omega), hprev c hc hash hat]
            have hrest := longest_le input pos maxLen
              (((nearest input hash c).takeWhile fun c => Visible pos c).take chain)
            have hlen := matchLength_le input c pos maxLen
            by_cases hbetter : best.1 < matchLength input c pos maxLen 0
            · rw [if_pos hbetter]
              by_cases hfull : matchLength input c pos maxLen 0 = maxLen
              · rw [if_pos hfull]
                refine ⟨_, rfl, ?_⟩
                dsimp only
                omega
              · rw [if_neg hfull]
                have hbest' : (matchLength input c pos maxLen 0, pos - c).1 ≤ maxLen := hlen
                obtain ⟨best', hrun, hmax⟩ := ih (q := c) hc.le hbest'
                refine ⟨best', hrun, ?_⟩
                rw [hmax]
                dsimp only
                omega
            · rw [if_neg hbetter]
              obtain ⟨best', hrun, hmax⟩ := ih (q := c) hc.le hbest
              refine ⟨best', hrun, ?_⟩
              rw [hmax]
              omega
          · have hc : c < pos := by omega
            rw [List.takeWhile_cons_of_neg (by simpa using hvisible), List.take_nil, link]
            refine ⟨best, ?_, (max_eq_left (Nat.zero_le _)).symm⟩
            rcases link_of_not_visible hc hvisible with hend | hout
            · rw [if_pos hend]
            · by_cases hend : UInt32.ofNat c = u32Max
              · rw [if_pos hend]
              · rw [if_neg hend]
                dsimp only
                rw [if_pos hout]

lemma Linked.findMatch {s : Compressor} (h : Linked input s.pos s) (maxChain : ℕ)
    (hpos : s.pos ≤ input.length) :
    ∃ best, findMatch input maxChain s = .ok best ∧
      best.1 = bestLength input maxChain s.pos := by
  rw [Lz.findMatch, bestLength]
  by_cases hroom : s.pos + minMatch ≤ input.length
  · obtain ⟨hash, hhash, hat, hlt⟩ := hashAt_of_room hroom
    have hmin : minMatch ≤ min maxMatch (input.length - s.pos) := by
      rw [minMatch] at hroom ⊢
      rw [maxMatch]
      omega
    rw [if_pos hmin, hhash, Outcome.ok_bind, h.head_eq hash hlt, hat]
    have hend : s.pos + min maxMatch (input.length - s.pos) ≤ input.length := by omega
    have hzero : ((0, 0) : ℕ × ℕ).1 ≤ min maxMatch (input.length - s.pos) := Nat.zero_le _
    obtain ⟨best, hrun, hbest⟩ := search_longest hend h.prev_eq hash maxChain (le_refl s.pos) hzero
    exact ⟨best, hrun, hbest.trans (max_eq_right (Nat.zero_le _))⟩
  · have hmin : ¬ minMatch ≤ min maxMatch (input.length - s.pos) := by
      rw [minMatch] at hroom ⊢
      omega
    rw [hashAt_of_no_room hroom]
    dsimp only
    rw [if_neg hmin]
    exact ⟨(0, 0), rfl, rfl⟩

/-! ## Rounds -/

variable {s t : Compressor}

lemma Linked.emitMatch {length distance : ℕ} (hchained : Chained input s.pos s)
    (h : Linked input s.pos s) (hend : s.pos + length ≤ input.length)
    (hrun : emitMatch input length distance s = (.ok (), t)) :
    Linked input t.pos t ∧ t.pos = s.pos + length := by
  rw [Lz.emitMatch, modify_bind_run, get_bind_run] at hrun
  dsimp only at hrun
  rw [Nat.min_eq_left hend, Nat.add_sub_cancel_left, bind_eq_ok] at hrun
  obtain ⟨_, u, hu, hmodify⟩ := hrun
  rw [modify_run, Prod.mk.injEq] at hmodify
  obtain ⟨-, rfl⟩ := hmodify
  have hwritten : Chained input s.pos { s with
      output := ((s.output.writeBit true).writeBits (UInt32.ofNat (length - minMatch)) 8).writeBits
        (UInt32.ofNat (distance - 1)) 15 } :=
    ⟨hchained.head_length, hchained.prev_length, hchained.head_lt, hchained.prev_lt⟩
  have hlinked := Linked.insertRange hwritten ⟨h.head_eq, h.prev_eq⟩ hend hu
  exact ⟨⟨hlinked.head_eq, hlinked.prev_eq⟩, rfl⟩

lemma Linked.emitLiteral (hchained : Chained input s.pos s) (h : Linked input s.pos s)
    (hpos : s.pos < input.length) (hrun : emitLiteral input s = (.ok (), t)) :
    Linked input t.pos t ∧ t.pos = s.pos + 1 := by
  have hwritten : Chained input s.pos { s with
      output := (s.output.writeBit false).writeBits (input[s.pos]).toUInt32 8 } :=
    ⟨hchained.head_length, hchained.prev_length, hchained.head_lt, hchained.prev_lt⟩
  obtain ⟨u, hu, -, -, hupos⟩ := hwritten.insert
  rw [Lz.emitLiteral, get_bind_run, List.getElem?_eq_getElem hpos,
    bind_of_ok (show call (Outcome.orPanic (some _)) s = (.ok _, s) from rfl), modify_bind_run,
    bind_of_ok hu, modify_run, Prod.mk.injEq] at hrun
  obtain ⟨-, rfl⟩ := hrun
  have hlinked := Linked.insert hwritten ⟨h.head_eq, h.prev_eq⟩ hpos hu
  have hnext : u.pos + 1 = s.pos + 1 := congrArg (· + 1) hupos
  refine ⟨?_, hnext⟩
  dsimp only
  rw [hnext]
  exact ⟨hlinked.head_eq, hlinked.prev_eq⟩

/-- What a round writes, and how far it goes. -/
structure Advances (input : List UInt8) (s : Compressor) (bits : List Bool) (width step : ℕ)
    (t : Compressor) : Prop where
  chained : Chained input t.pos t
  linked : Linked input t.pos t
  stands : ∃ token, t.output.Stands (bits ++ token) ∧ token.length = width
  pos_eq : t.pos = s.pos + step
  pos_le : t.pos ≤ input.length

/-- A round before the end writes the token of the parse. -/
lemma Linked.round (hchained : Chained input s.pos s) (h : Linked input s.pos s) (maxChain : ℕ)
    {bits : List Bool} (hbits : s.output.Stands bits) (hpos : s.pos < input.length) :
    ∃ t, Lz.round input maxChain s = (.ok (.inl ()), t) ∧
      if minMatch ≤ bestLength input maxChain s.pos then
        Advances input s bits 24 (bestLength input maxChain s.pos) t
      else Advances input s bits 9 1 t := by
  obtain ⟨best, hfind, hlength⟩ := h.findMatch maxChain hpos.le
  obtain ⟨_, hfind', hmatch⟩ := hchained.findMatch maxChain hpos.le
  cases hfind.symm.trans hfind'
  rw [← hlength, Lz.round, get_bind_run, if_pos hpos, hfind, bind_of_ok (call_run _ s)]
  by_cases hmin : minMatch ≤ best.1
  · obtain ⟨t, ht, hemits⟩ := hchained.emitMatch hbits hmatch hmin
    have hle := hmatch.length_le
    obtain ⟨hlinked, hstep⟩ := h.emitMatch hchained (by omega) ht
    refine ⟨t, by rw [if_pos hmin, bind_of_ok ht]; rfl, ?_⟩
    rw [if_pos hmin]
    refine ⟨hemits.chained, hlinked, ⟨_, hemits.stands, ?_⟩, hstep, hemits.pos_le⟩
    simp [tokenBits]
  · obtain ⟨t, ht, hemits⟩ := hchained.emitLiteral hbits hpos
    obtain ⟨hlinked, hstep⟩ := h.emitLiteral hchained hpos ht
    refine ⟨t, by rw [if_neg hmin, bind_of_ok ht]; rfl, ?_⟩
    rw [if_neg hmin]
    refine ⟨hemits.chained, hlinked, ⟨_, hemits.stands, ?_⟩, hstep, hemits.pos_le⟩
    simp [tokenBits]

/-- The main loop writes the bits of the parse. -/
lemma Linked.rounds (maxChain rounds : ℕ) {bits : List Bool} (hchained : Chained input s.pos s)
    (h : Linked input s.pos s) (hbits : s.output.Stands bits) (hpos : s.pos ≤ input.length)
    (hrounds : input.length - s.pos ≤ rounds) :
    ∃ out t, iterate (fun _ => Lz.round input maxChain) (rounds + 1) () s = (.ok out, t) ∧
      out.length = (bits.length + parseBits input maxChain rounds s.pos + 7) / 8 := by
  induction rounds generalizing s bits with
  | zero =>
      refine ⟨_, s, by rw [iterate, bind_of_ok (round_end maxChain (by omega))]; rfl, ?_⟩
      rw [hbits.length_finish, parseBits, Nat.add_zero]
  | succ rounds ih =>
      rw [iterate, parseBits]
      by_cases hend : input.length ≤ s.pos
      · refine ⟨_, s, by rw [bind_of_ok (round_end maxChain hend)]; rfl, ?_⟩
        rw [hbits.length_finish, if_pos hend, Nat.add_zero]
      · obtain ⟨t, hround, hadvances⟩ := h.round hchained maxChain hbits (by omega)
        rw [if_neg hend, bind_of_ok hround]
        -- the same for a match and for a literal, of their widths
        have hnext : ∀ width step, 0 < step → Advances input s bits width step t →
            ∃ out u, iterate (fun _ => Lz.round input maxChain) (rounds + 1) () t = (.ok out, u) ∧
              out.length = (bits.length +
                (width + parseBits input maxChain rounds (s.pos + step)) + 7) / 8 := by
          intro width step hstep hadvances
          obtain ⟨token, hstands, hwidth⟩ := hadvances.stands
          have hmoved := hadvances.pos_eq
          obtain ⟨out, u, hrun, hlen⟩ := ih hadvances.chained hadvances.linked hstands
            hadvances.pos_le (by omega)
          refine ⟨out, u, hrun, ?_⟩
          rw [hlen, List.length_append, hwidth, hmoved, Nat.add_assoc bits.length]
        by_cases hmin : minMatch ≤ bestLength input maxChain s.pos
        · rw [if_pos hmin] at hadvances ⊢
          exact hnext _ _ (lt_of_lt_of_le (by decide) hmin) hadvances
        · rw [if_neg hmin] at hadvances ⊢
          exact hnext _ _ Nat.one_pos hadvances

/-! ## The size -/

lemma linked_start (input : List UInt8) (output : BitWriter) :
    Linked input 0 ⟨List.replicate hashBuckets u32Max, List.replicate input.length u32Max, output,
      0⟩ := by
  refine ⟨fun hash hlt => ?_, fun i hi => absurd hi (Nat.not_lt_zero i)⟩
  exact List.getElem?_replicate_of_lt hlt

/-- The packed stream has the size of the parse. -/
lemma compress_length (level : ℤ) (hmin : minMatch ≤ input.length) :
    ∃ out, compress input level = .ok out ∧ out.length = packedSize input level := by
  have hempty : ∀ n, ∀ c ∈ List.replicate n u32Max, c ≠ u32Max → c.toNat < 0 :=
    fun n c hc hne => absurd (List.eq_of_mem_replicate hc) hne
  let start : Compressor := ⟨List.replicate hashBuckets u32Max,
    List.replicate input.length u32Max, BitWriter.new.writeU32 (UInt32.ofNat input.length), 0⟩
  have hchained : Chained input start.pos start :=
    ⟨List.length_replicate, List.length_replicate, hempty _, hempty _⟩
  obtain ⟨out, t, hrun, hlen⟩ := Linked.rounds (chainBudget level) input.length hchained
    (linked_start input _) (BitWriter.stands_writeU32 (UInt32.ofNat input.length))
    (Nat.zero_le _) (Nat.sub_le _ _)
  refine ⟨out, ?_, ?_⟩
  · rw [compress, if_neg (Nat.not_lt.mpr hmin)]
    exact congrArg Prod.fst hrun
  · rw [length_toBits] at hlen
    rw [hlen, packedSize]
    show (32 + parseBits input (chainBudget level) input.length 0 + 7) / 8 = _
    omega

/-- What comes back is empty or shorter than the input exactly when the input is too short for a
match, or its greedy parse saves more than the length in front. -/
theorem compress_smaller_iff (input : List UInt8) (level : ℤ) :
    (∃ out, compress input level = .ok out ∧ (out = [] ∨ out.length < input.length)) ↔
      input.length < minMatch ∨ packedSize input level < input.length := by
  rcases Nat.lt_or_ge input.length minMatch with hshort | hmin
  · refine iff_of_true ⟨[], ?_, .inl rfl⟩ (.inl hshort)
    rw [compress, if_pos hshort]
  · obtain ⟨out, hrun, hlen⟩ := compress_length level hmin
    rw [or_iff_right (Nat.not_lt.mpr hmin), ← hlen]
    constructor
    · rintro ⟨out', hrun', hsmaller⟩
      cases hrun.symm.trans hrun'
      refine hsmaller.resolve_left ?_
      rintro rfl
      rw [packedSize, List.length_nil] at hlen
      omega
    · exact fun hlt => ⟨out, hrun, .inr hlt⟩

/-- Three different bytes are packed into eight. -/
theorem compress_three_bytes : ¬ ∀ (input : List UInt8) (level : ℤ),
    ∃ out, compress input level = .ok out ∧ (out = [] ∨ out.length < input.length) := by
  intro h
  obtain ⟨out, hrun, hsmaller⟩ := h [0, 1, 2] 1
  have hmin : minMatch ≤ [(0 : UInt8), 1, 2].length := by decide
  obtain ⟨out', hrun', hlen⟩ := compress_length 1 hmin
  cases hrun.symm.trans hrun'
  have hsize : packedSize [0, 1, 2] 1 = 8 := by decide
  rw [hsize] at hlen
  rcases hsmaller with rfl | hlt
  · cases hlen
  · rw [hlen] at hlt
    exact absurd hlt (by decide)

end RustBinary.Lz
