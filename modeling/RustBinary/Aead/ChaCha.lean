import RustBinary.Lib.Bytes

/-!
# ChaCha20 and XChaCha20

The block function, the keystream and the cipher over it.  Words are 32 bits wide and wrap, and so
does the block counter.  The longer nonce is taken in two steps: its first 16 bytes make a key of
their own, and the other eight go into the nonce of the cipher.
-/

namespace RustBinary.Aead

open Lib

/-- 32-byte ChaCha20 key. -/
abbrev Key : Type := Vector UInt8 32

/-- 24-byte XChaCha20 nonce. -/
abbrev XNonce : Type := Vector UInt8 24

/-- The state of a block, 16 words. -/
abbrev Words : Type := List UInt32

/-- An array of `n` bytes, copied from a slice. -/
def arrayOf (n : ℕ) (bytes : List UInt8) : Vector UInt8 n := Vector.ofFn fun i => bytes.getD i 0

lemma toList_arrayOf {n : ℕ} {bytes : List UInt8} (h : bytes.length = n) :
    (arrayOf n bytes).toList = bytes := by
  refine List.ext_getElem (by rw [Vector.length_toList, h]) fun i hi hi' => ?_
  simp only [arrayOf, Vector.getElem_toList, Vector.getElem_ofFn, List.getD_eq_getElem?_getD,
    List.getElem?_eq_getElem hi', Option.getD_some]

lemma arrayOf_toList {n : ℕ} (array : Vector UInt8 n) : arrayOf n array.toList = array :=
  Vector.toList_inj.mp (toList_arrayOf Vector.length_toList)

/-! ## The block function -/

def rotateLeft (x n : UInt32) : UInt32 := (x <<< n) ||| (x >>> (32 - n))

/-- Word `i` of the state. -/
def word (i : ℕ) (state : Words) : UInt32 := state.getD i 0

/-- The ChaCha20 quarter round on four positions of the state. -/
def quarterRound (a b c d : ℕ) (state : Words) : Words :=
  let state := state.set a (word a state + word b state)
  let state := state.set d (word d state ^^^ word a state)
  let state := state.set d (rotateLeft (word d state) 16)
  let state := state.set c (word c state + word d state)
  let state := state.set b (word b state ^^^ word c state)
  let state := state.set b (rotateLeft (word b state) 12)
  let state := state.set a (word a state + word b state)
  let state := state.set d (word d state ^^^ word a state)
  let state := state.set d (rotateLeft (word d state) 8)
  let state := state.set c (word c state + word d state)
  let state := state.set b (word b state ^^^ word c state)
  state.set b (rotateLeft (word b state) 7)

/-- A column round and a diagonal round. -/
def doubleRound (state : Words) : Words :=
  let state := quarterRound 0 4 8 12 state
  let state := quarterRound 1 5 9 13 state
  let state := quarterRound 2 6 10 14 state
  let state := quarterRound 3 7 11 15 state
  let state := quarterRound 0 5 10 15 state
  let state := quarterRound 1 6 11 12 state
  let state := quarterRound 2 7 8 13 state
  quarterRound 3 4 9 14 state

def doubleRounds : ℕ → Words → Words
  | 0, state => state
  | n + 1, state => doubleRounds n (doubleRound state)

/-- The little-endian bytes of some words. -/
def wordBytes (words : List UInt32) : List UInt8 := words.flatMap fun word => leBytes 4 word.toNat

/-- `chacha20_block`. -/
def chacha20Block (state : Words) : List UInt8 :=
  wordBytes ((doubleRounds 10 state).zipWith (· + ·) state)

lemma length_wordBytes (words : List UInt32) : (wordBytes words).length = 4 * words.length := by
  induction words with
  | nil => rfl
  | cons word words ih =>
      rw [wordBytes] at ih ⊢
      rw [List.flatMap_cons, List.length_append, length_leBytes, ih, List.length_cons]
      omega

lemma length_doubleRound (state : Words) : (doubleRound state).length = state.length := by
  simp only [doubleRound, quarterRound, List.length_set]

lemma length_doubleRounds (n : ℕ) (state : Words) :
    (doubleRounds n state).length = state.length := by
  induction n generalizing state with
  | zero => rfl
  | succ n ih => rw [doubleRounds, ih, length_doubleRound]

lemma length_chacha20Block (state : Words) : (chacha20Block state).length = 4 * state.length := by
  rw [chacha20Block, length_wordBytes, List.length_zipWith, length_doubleRounds, min_self]

/-! ## The keystream -/

/-- Word `i` of a byte string. -/
def wordAt (bytes : List UInt8) (i : ℕ) : UInt32 :=
  UInt32.ofNat (leNat ((bytes.drop (4 * i)).take 4))

/-- The constants and the key, and four more words. -/
def stateOf (key : Key) (w12 w13 w14 w15 : UInt32) : Words :=
  [0x61707865, 0x3320646e, 0x79622d32, 0x6b206574,
    wordAt key.toList 0, wordAt key.toList 1, wordAt key.toList 2, wordAt key.toList 3,
    wordAt key.toList 4, wordAt key.toList 5, wordAt key.toList 6, wordAt key.toList 7,
    w12, w13, w14, w15]

/-- `init_state`: constants, key, counter, 12-byte nonce. -/
def initState (key : Key) (counter : UInt32) (nonce : Vector UInt8 12) : Words :=
  stateOf key counter (wordAt nonce.toList 0) (wordAt nonce.toList 1) (wordAt nonce.toList 2)

/-- The loop of `chacha20_keystream`; every round adds at least one byte. -/
def keystreamLoop (key : Key) (nonce : Vector UInt8 12) (len : ℕ) :
    ℕ → UInt32 → List UInt8 → List UInt8
  | 0, _, output => output
  | fuel + 1, counter, output =>
      if output.length < len then
        let block := chacha20Block (initState key counter nonce)
        let take := min (len - output.length) 64
        keystreamLoop key nonce len fuel (counter + 1) (output ++ block.take take)
      else output

/-- `chacha20_keystream`. -/
def chacha20Keystream (key : Key) (nonce : Vector UInt8 12) (counter : UInt32) (len : ℕ) :
    List UInt8 :=
  keystreamLoop key nonce len len counter []

/-- The loop ends with as many bytes as are wanted, also where the last block is cut. -/
lemma length_keystreamLoop {key : Key} {nonce : Vector UInt8 12} {len fuel : ℕ} {counter : UInt32}
    {output : List UInt8} (hle : output.length ≤ len) (hfuel : len ≤ output.length + fuel) :
    (keystreamLoop key nonce len fuel counter output).length = len := by
  induction fuel generalizing counter output with
  | zero => exact Nat.le_antisymm hle hfuel
  | succ fuel ih =>
      rw [keystreamLoop]
      split
      · next hlt =>
          have htake : ((chacha20Block (initState key counter nonce)).take
              (min (len - output.length) 64)).length = min (len - output.length) 64 := by
            have hblock := length_chacha20Block (initState key counter nonce)
            rw [show (initState key counter nonce).length = 16 from rfl] at hblock
            rw [List.length_take, hblock, min_eq_left (Nat.min_le_right _ _)]
          dsimp only
          refine ih ?_ ?_
          · rw [List.length_append, htake]
            omega
          · rw [List.length_append, htake]
            omega
      · omega

lemma length_chacha20Keystream (key : Key) (nonce : Vector UInt8 12) (counter : UInt32) (len : ℕ) :
    (chacha20Keystream key nonce counter len).length = len :=
  length_keystreamLoop (Nat.zero_le len) (by rw [List.length_nil, Nat.zero_add])

example : chacha20Keystream (Vector.ofFn fun i => UInt8.ofNat i)
    #v[0, 0, 0, 9, 0, 0, 0, 0x4a, 0, 0, 0, 0] 1 64 =
    [0x10, 0xf1, 0xe7, 0xe4, 0xd1, 0x3b, 0x59, 0x15, 0x50, 0x0f, 0xdd, 0x1f, 0xa3, 0x20, 0x71,
      0xc4, 0xc7, 0xd1, 0xf4, 0xc7, 0x33, 0xc0, 0x68, 0x03, 0x04, 0x22, 0xaa, 0x9a, 0xc3, 0xd4,
      0x6c, 0x4e, 0xd2, 0x82, 0x64, 0x46, 0x07, 0x9f, 0xaa, 0x09, 0x14, 0xc2, 0xd7, 0x05, 0xd9,
      0x8b, 0x02, 0xa2, 0xb5, 0x12, 0x9c, 0xd1, 0xde, 0x16, 0x4e, 0xb9, 0xcb, 0xd0, 0x83, 0xe8,
      0xa2, 0x50, 0x3c, 0x4e] := by
  decide +kernel

/-! ## The longer nonce -/

/-- `hchacha20`. -/
def hchacha20 (key : Key) (nonce16 : Vector UInt8 16) : Key :=
  let state := doubleRounds 10 (stateOf key (wordAt nonce16.toList 0) (wordAt nonce16.toList 1)
    (wordAt nonce16.toList 2) (wordAt nonce16.toList 3))
  arrayOf 32 (wordBytes ([0, 1, 2, 3, 12, 13, 14, 15].map fun i => word i state))

/-- `xchacha20_keystream`. -/
def xchacha20Keystream (key : Key) (nonce : XNonce) (counter : UInt32) (len : ℕ) : List UInt8 :=
  let subkey := hchacha20 key (arrayOf 16 (nonce.toList.take 16))
  let chachaNonce := arrayOf 12 (List.replicate 4 0 ++ nonce.toList.drop 16)
  chacha20Keystream subkey chachaNonce counter len

/-- `xchacha20_encrypt`. -/
def xchacha20Encrypt (key : Key) (nonce : XNonce) (plaintext : List UInt8) : List UInt8 :=
  plaintext.zipWith (· ^^^ ·) (xchacha20Keystream key nonce 1 plaintext.length)

/-- `xchacha20_decrypt`. -/
def xchacha20Decrypt (key : Key) (nonce : XNonce) (ciphertext : List UInt8) : List UInt8 :=
  xchacha20Encrypt key nonce ciphertext

lemma length_xchacha20Keystream (key : Key) (nonce : XNonce) (counter : UInt32) (len : ℕ) :
    (xchacha20Keystream key nonce counter len).length = len :=
  length_chacha20Keystream _ _ counter len

lemma length_xchacha20Encrypt (key : Key) (nonce : XNonce) (plaintext : List UInt8) :
    (xchacha20Encrypt key nonce plaintext).length = plaintext.length := by
  rw [xchacha20Encrypt, List.length_zipWith, length_xchacha20Keystream, min_self]

/-- Taking the exclusive or with one keystream twice changes nothing. -/
lemma zipWith_xor_cancel {bytes keystream : List UInt8} (h : bytes.length ≤ keystream.length) :
    (bytes.zipWith (· ^^^ ·) keystream).zipWith (· ^^^ ·) keystream = bytes := by
  induction bytes generalizing keystream with
  | nil => rfl
  | cons b bytes ih =>
      cases keystream with
      | nil => cases h
      | cons k keystream =>
          simp only [List.zipWith_cons_cons]
          rw [UInt8.xor_assoc, UInt8.xor_self, UInt8.xor_zero, ih (Nat.le_of_succ_le_succ h)]

/-- The cipher is its own inverse, on byte strings of every length. -/
lemma xchacha20Encrypt_encrypt (key : Key) (nonce : XNonce) (plaintext : List UInt8) :
    xchacha20Encrypt key nonce (xchacha20Encrypt key nonce plaintext) = plaintext := by
  have hlen := length_xchacha20Encrypt key nonce plaintext
  rw [xchacha20Encrypt, hlen, xchacha20Encrypt]
  exact zipWith_xor_cancel (length_xchacha20Keystream key nonce 1 _).ge

end RustBinary.Aead
