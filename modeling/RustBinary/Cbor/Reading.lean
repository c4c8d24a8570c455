import RustBinary.Cbor.Item
import RustBinary.Cbor.Head

/-!
# Reading encoded strings, numbers and simple values

`Next s bs` says that the bytes `bs` come next in the input of `s` and lie within the size
limit.  Reading what an encoder has written moves the cursor past it (`advance`), gives what
was written and, for a token, charges one element to the open container (`charge`).
-/

namespace RustBinary.Cbor

open Lib Lib.Act

namespace CborDecoder

/-- The bytes `bs` come next. -/
structure Next (s : CborDecoder) (bs : List UInt8) : Prop where
  isPrefix : bs <+: s.input.bytes.drop s.cursor
  inside : s.cursor + bs.length ≤ s.input.bytes.length
  admits : s.Admits (s.cursor + bs.length)

/-- The decoder `n` bytes further on. -/
def advance (s : CborDecoder) (n : ℕ) : CborDecoder := { s with cursor := s.cursor + n }

/-- One element less in the container on the top, if that is a definite one. -/
def chargeTop (frames : List Frame) : List Frame :=
  match frames.getLast? with
  | some ⟨kind, some (remaining + 1)⟩ => frames.dropLast ++ [⟨kind, some remaining⟩]
  | _ => frames

/-- The decoder with one element charged to the open container. -/
def charge (s : CborDecoder) : CborDecoder := { s with frames := chargeTop s.frames }

variable {s : CborDecoder}

lemma advance_advance (s : CborDecoder) (m n : ℕ) :
    (s.advance m).advance n = s.advance (m + n) := by
  simp [advance, Nat.add_assoc]

@[simp] lemma advance_zero (s : CborDecoder) : s.advance 0 = s := rfl

lemma Next.left {a b : List UInt8} (h : Next s (a ++ b)) : Next s a := by
  have hlen : a.length ≤ (a ++ b).length := by simp
  refine ⟨(List.prefix_append a b).trans h.isPrefix, ?_, fun l hl => ?_⟩
  · have := h.inside
    omega
  · have := h.admits l hl
    omega

lemma Next.right {a b : List UInt8} (h : Next s (a ++ b)) : Next (s.advance a.length) b := by
  have hlen : (a ++ b).length = a.length + b.length := List.length_append
  refine ⟨?_, ?_, fun l hl => ?_⟩
  · obtain ⟨rest, hrest⟩ := h.isPrefix
    refine ⟨rest, ?_⟩
    change b ++ rest = s.input.bytes.drop (s.cursor + a.length)
    rw [← List.drop_drop, ← hrest, List.append_assoc, List.drop_left]
  · have := h.inside
    change s.cursor + a.length + b.length ≤ s.input.bytes.length
    omega
  · have := h.admits l hl
    change s.cursor + a.length + b.length ≤ l
    omega

lemma Next.slice {bs : List UInt8} (h : Next s bs) :
    slice s.input.bytes s.cursor (s.cursor + bs.length) = some bs := by
  refine slice_eq_some.mpr ⟨Nat.le_add_right _ _, h.inside, ?_⟩
  rw [Nat.add_sub_cancel_left]
  exact (List.prefix_iff_eq_take.mp h.isPrefix).symm

lemma Next.head {byte : UInt8} {bs : List UInt8} (h : Next s (byte :: bs)) :
    s.input.bytes[s.cursor]? = some byte ∧ s.Admits (s.cursor + 1) := by
  refine ⟨?_, fun l hl => ?_⟩
  · obtain ⟨rest, hrest⟩ := h.isPrefix
    rw [← Nat.add_zero s.cursor, ← List.getElem?_drop, ← hrest]
    rfl
  · have := h.admits l hl
    rw [List.length_cons] at this
    omega

lemma Next.tail {byte : UInt8} {bs : List UInt8} (h : Next s (byte :: bs)) :
    Next (s.advance 1) bs := Next.right (a := [byte]) h

lemma Next.charge {bs : List UInt8} (h : Next s bs) : Next s.charge bs :=
  ⟨h.isPrefix, h.inside, h.admits⟩

lemma peekByte_next {byte : UInt8} {bs : List UInt8} (h : Next s (byte :: bs)) :
    orFail peekByte s = (.ok byte, s) :=
  peekByte_of_getElem s h.head.1 h.head.2

lemma bumpCursor_next {byte : UInt8} {bs : List UInt8} (h : Next s (byte :: bs)) :
    bumpCursor s = (.ok (), s.advance 1) := by
  have hlt := (List.getElem?_eq_some_iff.mp h.head.1).1
  have := s.input.length_le
  rcases bumpCursor_cases s with ⟨-, heq⟩ | ⟨hno, -⟩
  · exact heq
  · omega

lemma take_next {bs : List UInt8} (h : Next s bs) :
    orFail (take bs.length) s = (.ok bs, s.advance bs.length) :=
  take_of_slice s h.slice h.admits

lemma takeExact_next {bs : List UInt8} {len : ℕ} (h : Next s bs) (hlen : bs.length = len) :
    takeExact len s = (.ok bs, s.advance len) := by
  subst hlen
  exact takeExact_of_slice s h.slice h.admits

lemma takeValue_next {bs : List UInt8} {len : ℕ} (h : Next s bs) (hlen : bs.length = len) :
    takeValue len s = (.ok (.value (beNat bs)), s.advance len) := by
  rw [takeValue, bind_of_ok (takeExact_next h hlen)]
  rfl

/-! ## Heads -/

lemma readHead_byte {byte : UInt8} {bs : List UInt8} (h : Next s (byte :: bs)) :
    readHead s = (readArgument (byte.toNat / 2 ^ 5) (byte.toNat % 2 ^ 5) >>= fun argument =>
      pure (byte.toNat / 2 ^ 5, argument)) (s.advance 1) := by
  have hbyte : Next s ([byte] ++ bs) := h
  have htake : takeExact 1 s = (.ok [byte], s.advance 1) := takeExact_next hbyte.left rfl
  rw [readHead, bind_of_ok htake, beNat_singleton]

lemma readHead_openHead {major : ℕ} (hmajor : major < 8) (h : Next s (openHead major)) :
    readHead s = (.ok (major, .indefinite), s.advance (openHead major).length) := by
  have hnat : (UInt8.ofNat (2 ^ 5 * major + 31)).toNat = 2 ^ 5 * major + 31 := by
    rw [UInt8.toNat_ofNat']
    omega
  have hhead := readHead_indefinite s h.head.1 h.head.2 (by rw [hnat]; omega)
  rw [hhead, hnat, show (2 ^ 5 * major + 31) / 2 ^ 5 = major by omega]
  rfl

/-- Reading a head that an encoder has written. -/
lemma readHead_head {major n : ℕ} {width : Width} (hmajor : major < 7) (hn : n < width.bound)
    (h : Next s (head major width n)) :
    readHead s = (.ok (major, .value n), s.advance (head major width n).length) := by
  have hne : major ≠ 7 := by omega
  -- a width of one byte or more: the argument is what the bytes after the first one spell
  have hwide : ∀ ai w, 24 ≤ ai → ai < 28 → n < 256 ^ w →
      (∀ t, readArgument major ai t = takeValue w t) →
      Next s (UInt8.ofNat (2 ^ 5 * major + ai) :: beBytes w n) →
      readHead s = (.ok (major, .value n), s.advance (w + 1)) := by
    intro ai w hlo hhi hlt harg hnext
    have hnat : (UInt8.ofNat (2 ^ 5 * major + ai)).toNat = 2 ^ 5 * major + ai := by
      rw [UInt8.toNat_ofNat']
      omega
    have hvalue := takeValue_next hnext.tail (length_beBytes w n)
    rw [beNat_beBytes hlt] at hvalue
    rw [readHead_byte hnext, hnat, show (2 ^ 5 * major + ai) / 2 ^ 5 = major by omega,
      show (2 ^ 5 * major + ai) % 2 ^ 5 = ai by omega,
      bind_of_ok ((harg _).trans hvalue), advance_advance, Nat.add_comm 1 w]
    rfl
  cases width with
  | immediate =>
      have hlt : n < 24 := hn
      have hnat : (UInt8.ofNat (2 ^ 5 * major + n)).toNat = 2 ^ 5 * major + n := by
        rw [UInt8.toNat_ofNat']
        omega
      have harg : readArgument major n = pure (.value n) := by
        rw [readArgument, if_neg hne, if_pos (by omega)]
      rw [readHead_byte h, hnat, show (2 ^ 5 * major + n) / 2 ^ 5 = major by omega,
        show (2 ^ 5 * major + n) % 2 ^ 5 = n by omega, harg]
      rfl
  | one =>
      refine hwide 24 1 (by omega) (by omega) hn (fun t => ?_) h
      rw [readArgument, if_neg hne]
      rfl
  | two =>
      refine hwide 25 2 (by omega) (by omega) hn (fun t => ?_) h
      rw [readArgument, if_neg hne]
      rfl
  | four =>
      refine hwide 26 4 (by omega) (by omega) (hn.trans_le (by decide)) (fun t => ?_) h
      rw [readArgument, if_neg hne]
      rfl
  | eight =>
      refine hwide 27 8 (by omega) (by omega) (hn.trans_le (by decide)) (fun t => ?_) h
      rw [readArgument, if_neg hne]
      rfl

/-! ## Strings -/

lemma takeChunk_next {major : ℕ} {chunk : Chunk} {wrongChunk invalidLength : String}
    (h : Next s chunk.bytes) :
    takeChunk major wrongChunk invalidLength (major, .value chunk.bytes.length) s =
      (.ok chunk.bytes, s.advance chunk.bytes.length) := by
  rw [takeChunk, if_neg (by simp)]
  exact take_next h

lemma chunkRound_next {major : ℕ} {chunk : Chunk} {wrongChunk invalidLength : String}
    (hmajor : major < 7) (out : List UInt8) (h : Next s (chunk.encode major)) :
    chunkRound major wrongChunk invalidLength out s =
      (.ok (.inl (out ++ chunk.bytes)), s.advance (chunk.encode major).length) := by
  obtain ⟨byte, bs, hhead, hbyte⟩ := head_cons hmajor chunk.fits
  have hnext : Next s (byte :: (bs ++ chunk.bytes)) := by
    rw [Chunk.encode, hhead] at h
    exact h
  have hbreak : byte ≠ 0xff := by
    rintro rfl
    have : (255 : UInt8).toNat / 2 ^ 5 = 7 := by decide
    omega
  rw [chunkRound, bind_of_ok (peekByte_next hnext), if_neg hbreak,
    bind_of_ok (readHead_head hmajor chunk.fits h.left), bind_of_ok (takeChunk_next h.right),
    advance_advance, ← List.length_append]
  rfl

/-- The loop over chunks gives their contents. -/
lemma chunkLoop_next {major : ℕ} {wrongChunk invalidLength : String} (hmajor : major < 7)
    (chunks : List Chunk) {n : ℕ} (hn : chunks.length < n) (out : List UInt8)
    (h : Next s (chunks.flatMap (Chunk.encode major) ++ [0xff])) :
    iterate (chunkRound major wrongChunk invalidLength) n out s =
      (.ok (out ++ chunks.flatMap Chunk.bytes),
        s.advance (chunks.flatMap (Chunk.encode major) ++ [0xff]).length) := by
  induction chunks generalizing n out s with
  | nil =>
      obtain ⟨n, rfl⟩ : ∃ m, n = m + 1 := ⟨n - 1, by simp at hn; omega⟩
      have hbreak : chunkRound major wrongChunk invalidLength out s =
          (.ok (.inr out), s.advance 1) := by
        rw [chunkRound, bind_of_ok (peekByte_next h), if_pos rfl, bind_of_ok (bumpCursor_next h)]
        rfl
      rw [iterate_succ_run, hbreak]
      simp
  | cons chunk chunks ih =>
      obtain ⟨n, rfl⟩ : ∃ m, n = m + 1 := ⟨n - 1, by simp at hn; omega⟩
      rw [List.flatMap_cons, List.append_assoc] at h
      have hlt : chunks.length < n := by simpa using hn
      rw [iterate_succ_run, chunkRound_next hmajor out h.left]
      refine (ih hlt (out ++ chunk.bytes) h.right).trans ?_
      simp [advance_advance]

lemma chunk_length_pos (major : ℕ) (chunk : Chunk) : 0 < (chunk.encode major).length := by
  rw [Chunk.encode, List.length_append]
  have := List.length_pos_iff.mpr (head_ne_nil major chunk.width chunk.bytes.length)
  omega

lemma length_le_flatMap_encode (major : ℕ) (chunks : List Chunk) :
    chunks.length ≤ (chunks.flatMap (Chunk.encode major)).length := by
  induction chunks with
  | nil => simp
  | cons chunk chunks ih =>
      have := chunk_length_pos major chunk
      rw [List.flatMap_cons, List.length_append, List.length_cons]
      omega

lemma readChunks_next {major : ℕ} (wrongChunk invalidLength : String) (hmajor : major < 7)
    (chunks : List Chunk) (h : Next s (chunks.flatMap (Chunk.encode major) ++ [0xff])) :
    readChunks major wrongChunk invalidLength s =
      (.ok (chunks.flatMap Chunk.bytes),
        s.advance (chunks.flatMap (Chunk.encode major) ++ [0xff]).length) := by
  have hfuel : chunks.length < s.input.bytes.length + 1 := by
    have := length_le_flatMap_encode major chunks
    have := h.inside
    rw [List.length_append] at this
    omega
  rw [readChunks, get_bind_run, chunkLoop_next hmajor chunks hfuel [] h]
  rfl

/-- A byte string, in one piece or in chunks. -/
lemma readBytes_next {form : ByteString} (h : Next s (form.encode 2)) :
    ∃ argument t, readHead s = (.ok (2, argument), t) ∧
      readBytes argument t = (.ok form.content, s.advance (form.encode 2).length) := by
  cases form with
  | definite chunk =>
      refine ⟨_, _, readHead_head (by decide) chunk.fits h.left, ?_⟩
      have htake := take_next h.right
      rw [advance_advance, ← List.length_append] at htake
      exact htake
  | chunked chunks =>
      refine ⟨_, _, readHead_openHead (by decide) h.left, ?_⟩
      have hchunks := readChunks_next "indefinite byte string contains a non-byte chunk"
        "invalid byte string length" (by decide) chunks h.right
      rw [advance_advance, ← List.length_append] at hchunks
      exact hchunks

/-- A text, in one piece or in chunks. -/
lemma readText_next {text : Text} (h : Next s (text.form.encode 3)) :
    ∃ argument t, readHead s = (.ok (3, argument), t) ∧
      readText argument t = (.ok (.str text.value), s.advance (text.form.encode 3).length) := by
  obtain ⟨value, form, hcontent⟩ := text
  have hdecode : fromUtf8 form.content = some value := by
    rw [hcontent, fromUtf8_toUtf8]
  cases form with
  | definite chunk =>
      refine ⟨_, _, readHead_head (by decide) chunk.fits h.left, ?_⟩
      have htake := take_next h.right
      rw [advance_advance, ← List.length_append] at htake
      have hdecode' : fromUtf8 chunk.bytes = some value := hdecode
      rw [readText, bind_of_ok htake, hdecode']
      rfl
  | chunked chunks =>
      refine ⟨_, _, readHead_openHead (by decide) h.left, ?_⟩
      have hchunks := readChunks_next "indefinite text string contains a non-text chunk"
        "invalid text string length" (by decide) chunks h.right
      rw [advance_advance, ← List.length_append] at hchunks
      have hdecode' : fromUtf8 (chunks.flatMap Chunk.bytes) = some value := hdecode
      rw [readText, bind_of_ok hchunks, hdecode']
      rfl

/-! ## Tokens -/

lemma decRemaining_charge (h : HasRoom s) : decRemaining s = (.ok (), s.charge) := by
  rcases decRemaining_cases s with ⟨kind, next, hlast, heq⟩ | ⟨hlast, heq⟩ | ⟨⟨kind, hlast⟩, -⟩
  · rw [heq, charge, chargeTop, hlast]
  · have hsame : chargeTop s.frames = s.frames := by
      rcases hf : s.frames.getLast? with _ | ⟨kind, definite⟩
      · rw [chargeTop, hf]
      · have : definite = none := hlast _ hf
        subst this
        rw [chargeTop, hf]
    rw [heq, charge, hsame]
  · exact absurd hlast (h kind)

lemma readToken_of_head {major : ℕ} {argument : HeadArg} {token : Token} {t u : CborDecoder}
    (hhead : readHead s = (.ok (major, argument), t))
    (htoken : tokenOf major argument t = (.ok (.inr token), u)) :
    readToken s = (.ok token, u) := by
  have hround : tokenRound () s = (.ok (.inr token), u) := by
    rw [tokenRound, bind_of_ok hhead]
    exact htoken
  rw [readToken, get_bind_run, iterate_succ_run, hround]

/-- A head of major type 7 is one byte. -/
lemma readHead_simple (ai : ℕ) {argument : HeadArg} {bs : List UInt8} (hai : ai < 32)
    (harg : readArgument 7 ai = pure argument) (h : Next s (UInt8.ofNat (224 + ai) :: bs)) :
    readHead s = (.ok (7, argument), s.advance 1) := by
  have hnat : (UInt8.ofNat (224 + ai)).toNat = 224 + ai := by
    rw [UInt8.toNat_ofNat']
    omega
  rw [readHead_byte h, hnat, show (224 + ai) / 2 ^ 5 = 7 by omega,
    show (224 + ai) % 2 ^ 5 = ai by omega, harg]
  rfl

lemma readToken_of_simple {argument : HeadArg} {token : Token} {t u : CborDecoder}
    (hhead : readHead s = (.ok (7, argument), t))
    (hsimple : readSimple argument t = (.ok token, u)) : readToken s = (.ok token, u) := by
  refine readToken_of_head hhead ?_
  rw [tokenOf, bind_of_ok hsimple]
  rfl

lemma readToken_null (h : Next s [0xf6]) (hroom : HasRoom s) :
    readToken s = (.ok .null, (s.advance 1).charge) := by
  have hdec := decRemaining_charge (s := s.advance 1) hroom
  refine readToken_of_simple (readHead_simple 22 (by decide) rfl h) ?_
  rw [readSimple, bind_of_ok hdec]
  rfl

lemma readToken_bool (value : Bool) (h : Next s [if value then 0xf5 else 0xf4])
    (hroom : HasRoom s) : readToken s = (.ok (.bool value), (s.advance 1).charge) := by
  have hdec := decRemaining_charge (s := s.advance 1) hroom
  cases value with
  | false =>
      refine readToken_of_simple (readHead_simple 20 (by decide) rfl h) ?_
      rw [readSimple, bind_of_ok hdec]
      rfl
  | true =>
      refine readToken_of_simple (readHead_simple 21 (by decide) rfl h) ?_
      rw [readSimple, bind_of_ok hdec]
      rfl

lemma readToken_text {text : Text} (h : Next s (text.form.encode 3)) (hroom : HasRoom s) :
    readToken s =
      (.ok (.str text.value), (s.advance (text.form.encode 3).length).charge) := by
  obtain ⟨argument, t, hhead, htext⟩ := readText_next h
  refine readToken_of_head hhead ?_
  rw [tokenOf, bind_of_ok htext,
    bind_of_ok (decRemaining_charge (s := s.advance (text.form.encode 3).length) hroom)]
  rfl

/-- Leading zeros do not change what the bytes spell. -/
lemma beNat_replicate_zero (n : ℕ) (bs : List UInt8) :
    beNat (List.replicate n 0 ++ bs) = beNat bs := by
  have hzeros : ∀ k, leNat (List.replicate k 0) = 0 := by
    intro k
    induction k with
    | zero => rfl
    | succ k ih => simp [List.replicate_succ, leNat, ih]
  have happend : ∀ l : List UInt8, leNat (l ++ List.replicate n 0) = leNat l := by
    intro l
    induction l with
    | nil => simpa [leNat] using hzeros n
    | cons b l ih => simp [leNat, ih]
  rw [beNat, beNat, List.reverse_append, List.reverse_replicate, happend]

lemma minusOneSub_of_le {bits : ℕ} {value : ℤ} (h : -2 ^ (bits - 1) ≤ -1 - value)
    (h' : -1 - value < 2 ^ (bits - 1)) : minusOneSub bits value = pure (-1 - value) := by
  rw [minusOneSub, if_pos ⟨h, h'⟩]

/-- `-1 - value` does not overflow on the magnitude of a bignum. -/
lemma minusOneSub_asI128 {value : ℕ} (h : value < 2 ^ 128) :
    minusOneSub 128 (asI128 value) = pure (-1 - asI128 value) := by
  refine minusOneSub_of_le ?_ ?_
  · rw [asI128]
    split <;> omega
  · rw [asI128]
    split <;> omega

lemma readBignum_next {payload : Chunk} (negative : Bool) (short : payload.bytes.length ≤ 16)
    (h : Next s (payload.encode 2)) :
    readBignum negative s =
      (.ok (.number (if negative then .i128 (-1 - asI128 (beNat payload.bytes))
        else .u128 (beNat payload.bytes))), s.advance (payload.encode 2).length) := by
  have hhead := readHead_head (by decide) payload.fits h.left
  have htake := take_next h.right
  rw [advance_advance, ← List.length_append] at htake
  have hlt : beNat payload.bytes < 2 ^ 128 := by
    calc beNat payload.bytes < 256 ^ payload.bytes.length := beNat_lt _
      _ ≤ 256 ^ 16 := Nat.pow_le_pow_right (by decide) short
      _ = 2 ^ 128 := by decide
  rw [readBignum, bind_of_ok hhead]
  dsimp only
  rw [if_neg (by decide), bind_of_ok htake, if_neg (by omega), beNat_replicate_zero]
  cases negative with
  | false => rfl
  | true =>
      rw [minusOneSub_asI128 hlt]
      rfl

lemma readToken_number {value : Numeral} (h : Next s value.encode) (hroom : HasRoom s) :
    readToken s =
      (.ok (.number value.value), (s.advance value.encode.length).charge) := by
  have hdec : ∀ n, decRemaining (s.advance n) = (.ok (), (s.advance n).charge) :=
    fun n => decRemaining_charge (s := s.advance n) hroom
  cases value with
  | unsigned a =>
      refine readToken_of_head (readHead_head (by decide) a.fits h) ?_
      rw [tokenOf, bind_of_ok (hdec _)]
      rfl
  | negative a =>
      have hlt : a.value < 2 ^ 64 := a.fits.trans_le (by cases a.width <;> decide)
      refine readToken_of_head (readHead_head (by decide) a.fits h) ?_
      rw [tokenOf, bind_of_ok (hdec _), HeadArg.getValue, pure_bind, Numeral.value]
      by_cases hle : a.value ≤ 2 ^ 63 - 1
      · rw [if_pos hle, if_pos hle, minusOneSub_of_le (by omega) (by omega)]
        rfl
      · rw [if_neg hle, if_neg hle, minusOneSub_of_le (by omega) (by omega)]
        rfl
  | bignum negative tag payload short =>
      have htag : ∀ n, n < 24 → n < tag.bound :=
        fun n hn => hn.trans_le (by cases tag <;> decide)
      cases negative with
      | false =>
          refine readToken_of_head (readHead_head (by decide) (htag 2 (by decide)) h.left) ?_
          have hbig := readBignum_next false short h.right
          rw [advance_advance, ← List.length_append] at hbig
          rw [tokenOf, HeadArg.getValue, pure_bind, if_pos rfl, bind_of_ok hbig,
            bind_of_ok (hdec _)]
          rfl
      | true =>
          refine readToken_of_head (readHead_head (by decide) (htag 3 (by decide)) h.left) ?_
          have hbig := readBignum_next true short h.right
          rw [advance_advance, ← List.length_append] at hbig
          rw [tokenOf, HeadArg.getValue, pure_bind, if_neg (by decide), if_pos rfl,
            bind_of_ok hbig, bind_of_ok (hdec _)]
          rfl
  | half bits fits =>
      have hbits := takeExact_next h.tail.charge (length_beBytes 2 bits)
      refine readToken_of_simple (readHead_simple 25 (by decide) rfl h) ?_
      rw [readSimple, bind_of_ok (hdec 1), bind_of_ok hbits, beNat_beBytes fits]
      rfl
  | single bits fits =>
      have hbits := takeExact_next h.tail.charge (length_beBytes 4 bits)
      refine readToken_of_simple (readHead_simple 26 (by decide) rfl h) ?_
      rw [readSimple, bind_of_ok (hdec 1), bind_of_ok hbits,
        beNat_beBytes (fits.trans_le (by decide))]
      rfl
  | double bits fits =>
      have hbits := takeExact_next h.tail.charge (length_beBytes 8 bits)
      refine readToken_of_simple (readHead_simple 27 (by decide) rfl h) ?_
      rw [readSimple, bind_of_ok (hdec 1), bind_of_ok hbits,
        beNat_beBytes (fits.trans_le (by decide))]
      rfl

end CborDecoder

end RustBinary.Cbor
