import RustBinary.Hash.Tree

/-!
# Collisions

Two byte strings with one digest contain two calls of the compression function that are fed
different things and give one chaining value.  The flags carry the argument: they tell a node from a
chunk, the first block of a chunk from the later ones, and the last block from the earlier ones.
-/

namespace RustBinary.Hash

open Lib Lib.Outcome

/-! ## What is compressed -/

namespace Output

/-- What the compression function is fed for an output. -/
def fed (out : Output) : Cv × Words × UInt32 × UInt32 × UInt32 × UInt32 :=
  (out.inputChainingValue, out.blockWords, UInt32.ofNat out.counter,
    UInt32.ofNat (out.counter / 2 ^ 32), UInt32.ofNat out.blockLen, out.flags)

/-- The output as the root of the tree. -/
def root (out : Output) : Output :=
  { out with counter := 0, flags := out.flags ||| rootFlag }

/-- The compression function is fed different things and gives one chaining value. -/
def Collide (x y : Output) : Prop := x.fed ≠ y.fed ∧ x.chainingValue = y.chainingValue

end Output

/-- The block in front of the rest of a chunk. -/
def frontBlock (cv : Cv) (counter : ℕ) (startFlag : UInt32) (bytes : List UInt8) : Output :=
  ⟨cv, wordsFromBytes (bytes.take blockLen), counter, blockLen, startFlag⟩

/-- The blocks of a chunk but the last one. -/
def chunkBelow (cv : Cv) (counter : ℕ) (startFlag : UInt32) (bytes : List UInt8) : List Output :=
  if bytes.length ≤ blockLen then []
  else
    let block := frontBlock cv counter startFlag bytes
    block :: chunkBelow block.chainingValue counter 0 (bytes.drop blockLen)
termination_by bytes.length
decreasing_by
  rw [List.length_drop, blockLen]
  simp only [blockLen] at *
  omega

/-- The outputs below the one of the tree. -/
def treeBelow (start : ℕ) (bytes : List UInt8) : List Output :=
  if bytes.length ≤ chunkLen then chunkBelow iv start chunkStart bytes
  else
    let left := leftChunks (chunkCount bytes)
    (treeOutput start (bytes.take (chunkLen * left)) ::
        treeBelow start (bytes.take (chunkLen * left))) ++
      (treeOutput (start + left) (bytes.drop (chunkLen * left)) ::
        treeBelow (start + left) (bytes.drop (chunkLen * left)))
termination_by bytes.length
decreasing_by
  · rw [List.length_take]
    have := leftChunks_lt bytes (by omega)
    omega
  · rw [List.length_drop]
    have := leftChunks_lt bytes (by omega)
    have := leftChunks_pos (chunkCount bytes)
    simp only [chunkLen] at *
    omega

/-- What is compressed for the digest of a byte string. -/
def compressions (bytes : List UInt8) : List Output :=
  (treeOutput 0 bytes).root :: treeBelow 0 bytes

/-- There is a collision between what is compressed in two places. -/
def Colliding (xs ys : List Output) : Prop := ∃ x ∈ xs, ∃ y ∈ ys, x.Collide y

lemma Colliding.mono {xs xs' ys ys' : List Output} (h : Colliding xs ys) (hx : xs ⊆ xs')
    (hy : ys ⊆ ys') : Colliding xs' ys' := by
  obtain ⟨x, hxmem, y, hymem, hxy⟩ := h
  exact ⟨x, hx hxmem, y, hy hymem, hxy⟩

lemma Colliding.symm {xs ys : List Output} (h : Colliding xs ys) : Colliding ys xs := by
  obtain ⟨x, hx, y, hy, hne, heq⟩ := h
  exact ⟨y, hy, x, hx, hne.symm, heq.symm⟩

/-- One chaining value has been made of one thing, or there is a collision. -/
lemma fed_or_colliding {x y : Output} {xs ys : List Output} (hx : x ∈ xs) (hy : y ∈ ys)
    (h : x.chainingValue = y.chainingValue) : x.fed = y.fed ∨ Colliding xs ys :=
  (eq_or_ne x.fed y.fed).imp_right fun hne => ⟨x, hx, y, hy, hne, h⟩

/-! ## Words -/

lemma wordsOfBytes_inj {n : ℕ} : ∀ {xs ys : List UInt8}, xs.length = ys.length →
    xs.length ≤ 4 * n → wordsOfBytes n xs = wordsOfBytes n ys → xs = ys := by
  induction n with
  | zero =>
      intro xs ys hlen hle _
      rw [List.length_eq_zero_iff.mp (Nat.le_zero.mp hle)] at hlen ⊢
      exact (List.length_eq_zero_iff.mp hlen.symm).symm
  | succ n ih =>
      intro xs ys hlen hle h
      rw [wordsOfBytes, wordsOfBytes, List.cons.injEq] at h
      have hshort (zs : List UInt8) : leNat (zs.take 4) < 2 ^ 32 := by
        have hpow : 256 ^ (zs.take 4).length ≤ 256 ^ 4 :=
          Nat.pow_le_pow_right (by decide) (List.length_take_le 4 zs)
        exact (leNat_lt (zs.take 4)).trans_le hpow
      have hword : leNat (xs.take 4) = leNat (ys.take 4) := by
        have hmod := congrArg UInt32.toNat h.1
        rwa [UInt32.toNat_ofNat_of_lt' (hshort xs), UInt32.toNat_ofNat_of_lt' (hshort ys)] at hmod
      have hfront : xs.take 4 = ys.take 4 := by
        have hcount : (xs.take 4).length = (ys.take 4).length := by simp [hlen]
        rw [← leBytes_leNat (xs.take 4), ← leBytes_leNat (ys.take 4), hcount, hword]
      have hback : xs.drop 4 = ys.drop 4 :=
        ih (by simp [hlen]) (by rw [List.length_drop]; omega) h.2
      rw [← List.take_append_drop 4 xs, ← List.take_append_drop 4 ys, hfront, hback]

/-- The words of a block and its length are those of one block only. -/
lemma wordsFromBytes_inj {xs ys : List UInt8} (hx : xs.length ≤ blockLen) (hy : ys.length ≤ blockLen)
    (hlen : UInt32.ofNat xs.length = UInt32.ofNat ys.length)
    (h : wordsFromBytes xs = wordsFromBytes ys) : xs = ys := by
  have hword (n : ℕ) (hn : n ≤ blockLen) : n < 2 ^ 32 := hn.trans_lt (by decide)
  have hcount := congrArg UInt32.toNat hlen
  rw [UInt32.toNat_ofNat_of_lt' (hword _ hx), UInt32.toNat_ofNat_of_lt' (hword _ hy)] at hcount
  refine wordsOfBytes_inj (n := 16) hcount hx ?_
  have harray := congrArg (fun words : Words => words.toArray.toList) h
  simpa [wordsFromBytes] using harray

/-! ## Chunks -/

section Chunks

variable {cv cv' : Cv} {counter counter' : ℕ} {flag flag' : UInt32} {a b : List UInt8}

lemma chunkOutput_of_le (h : a.length ≤ blockLen) : chunkOutput cv counter flag a =
    ⟨cv, wordsFromBytes a, counter, a.length, flag ||| chunkEnd⟩ := by
  rw [chunkOutput, if_pos h]

lemma chunkOutput_of_lt (h : blockLen < a.length) : chunkOutput cv counter flag a =
    chunkOutput (frontBlock cv counter flag a).chainingValue counter 0 (a.drop blockLen) := by
  rw [chunkOutput, if_neg (Nat.not_le.mpr h)]
  rfl

lemma chunkBelow_of_lt (h : blockLen < a.length) : chunkBelow cv counter flag a =
    frontBlock cv counter flag a ::
      chunkBelow (frontBlock cv counter flag a).chainingValue counter 0 (a.drop blockLen) := by
  rw [chunkBelow, if_neg (Nat.not_le.mpr h)]

/-- The flags in front of the end of a chunk. -/
def IsStart (flag : UInt32) : Prop := flag = 0 ∨ flag = chunkStart

lemma or_chunkEnd_inj (h : IsStart flag) (h' : IsStart flag')
    (heq : flag ||| chunkEnd = flag' ||| chunkEnd) : flag = flag' := by
  rcases h with rfl | rfl <;> rcases h' with rfl | rfl
  · rfl
  · exact absurd heq (by decide)
  · exact absurd heq (by decide)
  · rfl

/-- The output of a chunk is the end of a chunk. -/
lemma flags_chunkOutput (cv : Cv) (counter : ℕ) (a : List UInt8) (h : IsStart flag) :
    ∃ last, IsStart last ∧ (chunkOutput cv counter flag a).flags = last ||| chunkEnd := by
  induction cv, flag, a using chunkOutput.induct counter with
  | case1 cv flag a hle =>
      rw [chunkOutput_of_le hle]
      exact ⟨flag, h, rfl⟩
  | case2 cv flag a hlt ih =>
      rw [chunkOutput_of_lt (Nat.lt_of_not_le hlt)]
      exact ih (.inl rfl)

/-- Chains of as many blocks end alike only if they are alike. -/
lemma chunk_same (hflag : IsStart flag) (hflag' : IsStart flag')
    (hblocks : (a.length - 1) / blockLen = (b.length - 1) / blockLen)
    (h : (chunkOutput cv counter flag a).fed = (chunkOutput cv' counter' flag' b).fed) :
    (cv = cv' ∧ flag = flag' ∧ a = b) ∨
      Colliding (chunkBelow cv counter flag a) (chunkBelow cv' counter' flag' b) := by
  have hlen : blockLen = 64 := rfl
  induction cv, flag, a using chunkOutput.induct counter generalizing cv' flag' b with
  | case1 cv flag a hle =>
      have hle' : b.length ≤ blockLen := by
        rw [hlen] at *
        omega
      rw [chunkOutput_of_le hle, chunkOutput_of_le hle'] at h
      simp only [Output.fed, Prod.mk.injEq] at h
      obtain ⟨rfl, hwords, -, -, hcount, hflags⟩ := h
      exact .inl ⟨rfl, or_chunkEnd_inj hflag hflag' hflags,
        wordsFromBytes_inj hle hle' hcount hwords⟩
  | case2 cv flag a hlt ih =>
      have hgt : blockLen < a.length := Nat.lt_of_not_le hlt
      have hgt' : blockLen < b.length := by
        rw [hlen] at *
        omega
      rw [chunkOutput_of_lt hgt, chunkOutput_of_lt hgt'] at h
      rw [chunkBelow_of_lt hgt, chunkBelow_of_lt hgt']
      have hblocks' : ((a.drop blockLen).length - 1) / blockLen =
          ((b.drop blockLen).length - 1) / blockLen := by
        rw [List.length_drop, List.length_drop, hlen] at *
        omega
      rcases ih (.inl rfl) (.inl rfl) hblocks' h with ⟨hcv, -, hdrop⟩ | hcollide
      · have hhead : (frontBlock cv counter flag a).fed = (frontBlock cv' counter' flag' b).fed ∨
            Colliding (frontBlock cv counter flag a ::
                chunkBelow (frontBlock cv counter flag a).chainingValue counter 0 (a.drop blockLen))
              (frontBlock cv' counter' flag' b ::
                chunkBelow (frontBlock cv' counter' flag' b).chainingValue counter' 0
                  (b.drop blockLen)) :=
          fed_or_colliding List.mem_cons_self List.mem_cons_self hcv
        rcases hhead with hfed | hcollide
        · simp only [Output.fed, frontBlock, Prod.mk.injEq] at hfed
          obtain ⟨rfl, hwords, -, -, -, rfl⟩ := hfed
          have hx : (a.take blockLen).length = blockLen := List.length_take_of_le hgt.le
          have hy : (b.take blockLen).length = blockLen := List.length_take_of_le hgt'.le
          have hfront : a.take blockLen = b.take blockLen :=
            wordsFromBytes_inj hx.le hy.le (by rw [hx, hy]) hwords
          refine .inl ⟨rfl, rfl, ?_⟩
          rw [← List.take_append_drop blockLen a, hfront, hdrop, List.take_append_drop]
        · exact .inr hcollide
      · exact .inr (hcollide.mono (List.subset_cons_self ..) (List.subset_cons_self ..))

/-- A chain does not end like a shorter chain that starts a chunk. -/
lemma chunk_longer (hflag : IsStart flag)
    (hblocks : (b.length - 1) / blockLen < (a.length - 1) / blockLen)
    (h : (chunkOutput cv counter flag a).fed = (chunkOutput cv' counter' chunkStart b).fed) :
    Colliding (chunkBelow cv counter flag a) (chunkBelow cv' counter' chunkStart b) := by
  have hlen : blockLen = 64 := rfl
  induction cv, flag, a using chunkOutput.induct counter with
  | case1 cv flag a hle =>
      rw [hlen] at *
      omega
  | case2 cv flag a hlt ih =>
      have hgt : blockLen < a.length := Nat.lt_of_not_le hlt
      rw [chunkOutput_of_lt hgt] at h
      rw [chunkBelow_of_lt hgt]
      refine Colliding.mono ?_ (List.subset_cons_self ..) (List.Subset.refl _)
      by_cases hsame : ((a.drop blockLen).length - 1) / blockLen = (b.length - 1) / blockLen
      · rcases chunk_same (.inl rfl) (.inr rfl) hsame h with ⟨-, hflags, -⟩ | hcollide
        · exact absurd hflags (by decide)
        · exact hcollide
      · refine ih (.inl rfl) ?_ h
        rw [List.length_drop, hlen] at *
        omega

/-- Chunks end alike only if they are alike. -/
lemma chunk_inj (h : (chunkOutput iv counter chunkStart a).fed =
      (chunkOutput iv counter' chunkStart b).fed) :
    a = b ∨ Colliding (chunkBelow iv counter chunkStart a)
      (chunkBelow iv counter' chunkStart b) := by
  rcases Nat.lt_trichotomy ((a.length - 1) / blockLen) ((b.length - 1) / blockLen) with
    hlt | heq | hgt
  · exact .inr (chunk_longer (.inr rfl) hlt h.symm).symm
  · exact (chunk_same (.inr rfl) (.inr rfl) heq h).imp_left fun hall => hall.2.2
  · exact .inr (chunk_longer (.inr rfl) hgt h)

end Chunks

/-! ## Trees -/

section Trees

variable {start start' : ℕ} {a b : List UInt8}

lemma treeOutput_of_le (h : a.length ≤ chunkLen) :
    treeOutput start a = chunkOutput iv start chunkStart a := by
  rw [treeOutput, if_pos h]

lemma treeOutput_of_lt (h : chunkLen < a.length) :
    treeOutput start a = parentOutput
      (treeOutput start (a.take (chunkLen * leftChunks (chunkCount a)))).chainingValue
      (treeOutput (start + leftChunks (chunkCount a))
        (a.drop (chunkLen * leftChunks (chunkCount a)))).chainingValue := by
  rw [treeOutput, if_neg (Nat.not_le.mpr h)]

/-- A chunk is not fed what a node is fed. -/
lemma chunk_ne_parent (counter : ℕ) (left right : Cv) :
    (chunkOutput iv counter chunkStart a).fed ≠ (parentOutput left right).fed := by
  intro h
  obtain ⟨last, hlast, hflags⟩ := flags_chunkOutput iv counter a
    (show IsStart chunkStart from .inr rfl)
  have heq : last ||| chunkEnd = parentFlag := by
    rw [← hflags]
    exact congrArg (fun fed => fed.2.2.2.2.2) h
  rcases hlast with rfl | rfl
  · exact absurd heq (by decide)
  · exact absurd heq (by decide)

/-- The two chaining values under a node. -/
lemma parent_inj {left right left' right' : Cv}
    (h : (parentOutput left right).fed = (parentOutput left' right').fed) :
    left = left' ∧ right = right' := by
  have hwords : left ++ right = left' ++ right' := congrArg (fun fed => fed.2.1) h
  exact Vector.append_inj hwords

/-- A subtree, by its chaining value. -/
lemma child_inj
    (hinj : (treeOutput start a).fed = (treeOutput start' b).fed →
      a = b ∨ Colliding (treeBelow start a) (treeBelow start' b))
    (h : (treeOutput start a).chainingValue = (treeOutput start' b).chainingValue) :
    a = b ∨ Colliding (treeOutput start a :: treeBelow start a)
      (treeOutput start' b :: treeBelow start' b) := by
  have hhead : (treeOutput start a).fed = (treeOutput start' b).fed ∨
      Colliding (treeOutput start a :: treeBelow start a)
        (treeOutput start' b :: treeBelow start' b) :=
    fed_or_colliding List.mem_cons_self List.mem_cons_self h
  rcases hhead with hfed | hcollide
  · exact (hinj hfed).imp_right fun hbelow =>
      hbelow.mono (List.subset_cons_self _ _) (List.subset_cons_self _ _)
  · exact .inr hcollide

lemma treeBelow_of_lt (h : chunkLen < a.length) : treeBelow start a =
    (treeOutput start (a.take (chunkLen * leftChunks (chunkCount a))) ::
        treeBelow start (a.take (chunkLen * leftChunks (chunkCount a)))) ++
      (treeOutput (start + leftChunks (chunkCount a))
          (a.drop (chunkLen * leftChunks (chunkCount a))) ::
        treeBelow (start + leftChunks (chunkCount a))
          (a.drop (chunkLen * leftChunks (chunkCount a)))) := by
  rw [treeBelow, if_neg (Nat.not_le.mpr h)]

/-- Trees end alike only if they are over the same bytes. -/
lemma tree_inj (h : (treeOutput start a).fed = (treeOutput start' b).fed) :
    a = b ∨ Colliding (treeBelow start a) (treeBelow start' b) := by
  induction start, a using treeOutput.induct generalizing start' b with
  | case1 start a hle =>
      rw [treeOutput_of_le hle] at h
      by_cases hle' : b.length ≤ chunkLen
      · rw [treeOutput_of_le hle'] at h
        rw [treeBelow, if_pos hle, treeBelow, if_pos hle']
        exact chunk_inj h
      · rw [treeOutput_of_lt (Nat.lt_of_not_le hle')] at h
        exact absurd h (chunk_ne_parent _ _ _)
  | case2 start a hlt left ihleft =>
      rename_i ihright
      rw [treeOutput_of_lt (Nat.lt_of_not_le hlt)] at h
      by_cases hle' : b.length ≤ chunkLen
      · rw [treeOutput_of_le hle'] at h
        exact absurd h.symm (chunk_ne_parent _ _ _)
      · rw [treeOutput_of_lt (Nat.lt_of_not_le hle')] at h
        obtain ⟨hleft, hright⟩ := parent_inj h
        rw [treeBelow_of_lt (Nat.lt_of_not_le hlt), treeBelow_of_lt (Nat.lt_of_not_le hle')]
        rcases child_inj ihleft hleft with htake | hcollide
        · rcases child_inj ihright hright with hdrop | hcollide
          · left
            rw [← List.take_append_drop (chunkLen * leftChunks (chunkCount a)) a, htake, hdrop,
              List.take_append_drop]
          · exact .inr (hcollide.mono (List.subset_append_right _ _) (List.subset_append_right _ _))
        · exact .inr (hcollide.mono (List.subset_append_left _ _) (List.subset_append_left _ _))

end Trees

/-! ## Digests -/

/-- The digest is that of the tree. -/
lemma blake3_eq (input : List UInt8) : blake3 input = .ok (treeOutput 0 input).rootHash := by
  have hlazy : Lazy 0 Hasher.new := fun h => absurd rfl h
  obtain ⟨h, hupdate, habsorbed, hend⟩ :=
    (Absorbed.new input).updateLoop hlazy (List.prefix_refl input) le_rfl
  rw [Nat.zero_add] at habsorbed hend
  rw [blake3, Hasher.update, hupdate, ok_bind, habsorbed.finalize hend]
  rfl

lemma toList_digest (input : List UInt8) :
    (digest input).toList = (treeOutput 0 input).rootHash := by
  have hbytes : (digest input).toList = (blake3 input).ok?.getD [] := by simp [digest]
  rw [hbytes, blake3_eq]
  rfl

lemma flatMap_leBytes_inj : ∀ {xs ys : List UInt32}, xs.length = ys.length →
    xs.flatMap (fun word => leBytes 4 word.toNat) = ys.flatMap (fun word => leBytes 4 word.toNat) →
    xs = ys
  | [], [], _, _ => rfl
  | x :: xs, y :: ys, hlen, h => by
      rw [List.flatMap_cons, List.flatMap_cons] at h
      obtain ⟨hfirst, hrest⟩ := List.append_inj h (by rw [length_leBytes, length_leBytes])
      have hword := congrArg leNat hfirst
      rw [leNat_leBytes x.toNat_lt, leNat_leBytes y.toNat_lt] at hword
      rw [UInt32.toNat_inj.mp hword, flatMap_leBytes_inj (Nat.succ.inj hlen) hrest]

/-- The digest of a root is its chaining value. -/
lemma chainingValue_of_rootHash {x y : Output} (h : x.rootHash = y.rootHash) :
    x.root.chainingValue = y.root.chainingValue := by
  have hwords := flatMap_leBytes_inj (by simp) h
  rw [← Vector.toList_inj]
  simpa [Output.chainingValue, Output.root, Vector.toList, List.extract_eq_take_drop] using hwords

lemma counter_chunkOutput (cv : Cv) (counter : ℕ) (flag : UInt32) (bytes : List UInt8) :
    (chunkOutput cv counter flag bytes).counter = counter := by
  induction cv, flag, bytes using chunkOutput.induct counter with
  | case1 cv flag bytes hle => rw [chunkOutput_of_le hle]
  | case2 cv flag bytes hlt ih =>
      rw [chunkOutput_of_lt (Nat.lt_of_not_le hlt)]
      exact ih

/-- The output of a whole tree counts no chunks, and its flags are those of the end of a chunk or of
a node. -/
lemma treeOutput_zero (bytes : List UInt8) : (treeOutput 0 bytes).counter = 0 ∧
    ((treeOutput 0 bytes).flags = chunkEnd ∨
      (treeOutput 0 bytes).flags = chunkStart ||| chunkEnd ∨
      (treeOutput 0 bytes).flags = parentFlag) := by
  by_cases hle : bytes.length ≤ chunkLen
  · rw [treeOutput_of_le hle]
    refine ⟨counter_chunkOutput iv 0 chunkStart bytes, ?_⟩
    obtain ⟨last, rfl | rfl, hflags⟩ := flags_chunkOutput iv 0 bytes
      (show IsStart chunkStart from .inr rfl)
    · exact .inl hflags
    · exact .inr (.inl hflags)
  · rw [treeOutput_of_lt (Nat.lt_of_not_le hle)]
    exact ⟨rfl, .inr (.inr rfl)⟩

/-- What is fed for the root is what would be fed for the output of the tree. -/
lemma fed_of_root {a b : List UInt8}
    (h : (treeOutput 0 a).root.fed = (treeOutput 0 b).root.fed) :
    (treeOutput 0 a).fed = (treeOutput 0 b).fed := by
  obtain ⟨hcounter, hflags⟩ := treeOutput_zero a
  obtain ⟨hcounter', hflags'⟩ := treeOutput_zero b
  simp only [Output.fed, Output.root, Prod.mk.injEq] at h
  obtain ⟨hcv, hwords, -, -, hlen, hor⟩ := h
  have hsame : (treeOutput 0 a).flags = (treeOutput 0 b).flags := by
    rcases hflags with h1 | h1 | h1 <;> rcases hflags' with h2 | h2 | h2 <;>
      rw [h1, h2] at hor ⊢ <;> revert hor <;> decide
  simp only [Output.fed, hcv, hwords, hcounter, hcounter', hlen, hsame]

/-- **Collisions.** Two byte strings are the same, or they have different digests, or among what is
compressed for the one and for the other there are two calls of the compression function that are
fed different things and give one chaining value. -/
theorem digest_ne_or_colliding (a b : List UInt8) :
    a = b ∨ digest a ≠ digest b ∨ Colliding (compressions a) (compressions b) := by
  by_cases hdigest : digest a = digest b
  · have hroot : (treeOutput 0 a).rootHash = (treeOutput 0 b).rootHash := by
      rw [← toList_digest, ← toList_digest, hdigest]
    have hhead : (treeOutput 0 a).root.fed = (treeOutput 0 b).root.fed ∨
        Colliding (compressions a) (compressions b) :=
      fed_or_colliding List.mem_cons_self List.mem_cons_self (chainingValue_of_rootHash hroot)
    rcases hhead with hfed | hcollide
    · exact (tree_inj (fed_of_root hfed)).imp_right fun hbelow =>
        .inr (hbelow.mono (List.subset_cons_self _ _) (List.subset_cons_self _ _))
    · exact .inr (.inr hcollide)
  · exact .inr (.inl hdigest)

end RustBinary.Hash
