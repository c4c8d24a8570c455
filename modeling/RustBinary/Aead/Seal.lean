import RustBinary.Aead.ChaCha
import RustBinary.Aead.Tag
import RustBinary.Core.Slice

/-!
# Sealing and opening

XChaCha20-Poly1305: the message under the keystream from block 1 on, and a tag over the associated
data, the ciphertext and their lengths, under a key from block 0.  Opening is the inverse of sealing
on every byte string (`decrypt_eq_ok_iff`): the tag is over the ciphertext, so that both sides
compute it from the same bytes.
-/

namespace RustBinary.Aead

open Lib Lib.Outcome

/-- `AeadError`. -/
abbrev AeadError : Type := Unit

def tagLen : ℕ := 16

/-! ## The code -/

/-- The capacity of a vector of bytes. -/
def allocate (count : ℕ) : Outcome AeadError Unit := if count ≤ isizeMax then ok () else panic

/-- `poly1305`. -/
def poly1305 (key : Key) (nonce : XNonce) (msg : List UInt8) : Outcome AeadError (List UInt8) :=
  let keystream := xchacha20Keystream key nonce 0 64
  let r := clampR (arrayOf 16 (keystream.take 16))
  let s := arrayOf 16 ((keystream.drop 16).take 16)
  poly1305Mac r s msg

/-- `pad_to_16`. -/
def padTo16 (len : ℕ) : ℕ := (16 - len % 16) % 16

/-- `poly1305_tag`. -/
def poly1305Tag (key : Key) (nonce : XNonce) (ciphertext aad : List UInt8) :
    Outcome AeadError (List UInt8) := do
  let aadPadded := padTo16 aad.length
  let ctPadded := padTo16 ciphertext.length
  let total ← checked 64 (aad.length + aadPadded + ciphertext.length + ctPadded + 16)
  allocate total
  let message := aad ++ List.replicate aadPadded 0 ++ ciphertext ++ List.replicate ctPadded 0 ++
    leBytes 8 aad.length ++ leBytes 8 ciphertext.length
  poly1305 key nonce message

/-- `constant_time_eq`. -/
def constantTimeEq (left right : List UInt8) : Bool :=
  if left.length ≠ right.length then false
  else (left.zipWith (· ^^^ ·) right).foldl (· ||| ·) 0 = 0

/-- `XChaCha20Poly1305::encrypt`. -/
def encrypt (key : Key) (nonce : XNonce) (aad msg : List UInt8) :
    Outcome AeadError (List UInt8) := do
  let ciphertext := xchacha20Encrypt key nonce msg
  let tag ← poly1305Tag key nonce ciphertext aad
  allocate (ciphertext.length + tagLen)
  ok (ciphertext ++ tag)

/-- `XChaCha20Poly1305::decrypt`. -/
def decrypt (key : Key) (nonce : XNonce) (aad msg : List UInt8) :
    Outcome AeadError (List UInt8) := do
  require (tagLen ≤ msg.length) ()
  let split := msg.length - tagLen
  let ciphertext := msg.take split
  let tag := msg.drop split
  let expected ← poly1305Tag key nonce ciphertext aad
  require (constantTimeEq expected tag) ()
  ok (xchacha20Decrypt key nonce ciphertext)

/-! ## The tag -/

lemma allocate_of {count : ℕ} (h : count ≤ isizeMax) : allocate count = ok () := if_pos h

lemma allocate_eq_ok {count : ℕ} {u : Unit} : allocate count = ok u ↔ count ≤ isizeMax := by
  rw [allocate]
  split
  · next h => simp [h]
  · next h => simp [h]

lemma foldl_or_eq_zero {bytes : List UInt8} {diff : UInt8} :
    bytes.foldl (· ||| ·) diff = 0 ↔ diff = 0 ∧ ∀ b ∈ bytes, b = 0 := by
  induction bytes generalizing diff with
  | nil => simp
  | cons b bytes ih =>
      rw [List.foldl_cons, ih, UInt8.or_eq_zero_iff, List.forall_mem_cons, and_assoc]

lemma forall_zipWith_xor {left right : List UInt8} (h : left.length = right.length) :
    (∀ b ∈ left.zipWith (· ^^^ ·) right, b = 0) ↔ left = right := by
  induction left generalizing right with
  | nil =>
      rw [List.length_eq_zero_iff.mp h.symm]
      simp
  | cons l left ih =>
      cases right with
      | nil => cases h
      | cons r right =>
          rw [List.zipWith_cons_cons, List.forall_mem_cons, ih (Nat.succ.inj h),
            UInt8.xor_eq_zero_iff, List.cons.injEq]

/-- The comparison tells two byte strings apart. -/
lemma constantTimeEq_iff {left right : List UInt8} : constantTimeEq left right ↔ left = right := by
  rw [constantTimeEq]
  split
  · next hlen =>
      exact ⟨nofun, fun heq => absurd (congrArg List.length heq) hlen⟩
  · next hlen =>
      rw [not_not] at hlen
      rw [decide_eq_true_iff, foldl_or_eq_zero, forall_zipWith_xor hlen]
      exact and_iff_right rfl

lemma length_of_poly1305Tag {key : Key} {nonce : XNonce} {ciphertext aad tag : List UInt8}
    (h : poly1305Tag key nonce ciphertext aad = ok tag) : tag.length = tagLen := by
  obtain ⟨_, -, h⟩ := bind_eq_ok.mp h
  obtain ⟨_, -, h⟩ := bind_eq_ok.mp h
  rw [poly1305, (poly1305Mac_eq _ _ _).2] at h
  cases h
  exact length_leBytes 16 _

/-- There is a tag unless its message would be longer than a vector can be. -/
lemma exists_poly1305Tag (key : Key) (nonce : XNonce) {ciphertext aad : List UInt8}
    (h : aad.length + padTo16 aad.length + ciphertext.length + padTo16 ciphertext.length + 16 ≤
      isizeMax) : ∃ tag, poly1305Tag key nonce ciphertext aad = ok tag := by
  have hword : isizeMax < 2 ^ 64 := by decide
  simp only [poly1305Tag, checked_of_lt (h.trans_lt hword), allocate_of h, ok_bind, poly1305,
    (poly1305Mac_eq _ _ _).2, Outcome.ok.injEq, exists_eq']

/-! ## Opening is the inverse of sealing -/

/-- What is sealed is a ciphertext and its tag. -/
lemma encrypt_eq_ok {key : Key} {nonce : XNonce} {aad msg out : List UInt8} :
    encrypt key nonce aad msg = ok out ↔ ∃ tag,
      poly1305Tag key nonce (xchacha20Encrypt key nonce msg) aad = ok tag ∧
      msg.length + tagLen ≤ isizeMax ∧ xchacha20Encrypt key nonce msg ++ tag = out := by
  simp only [encrypt, bind_eq_ok, allocate_eq_ok, Outcome.ok.injEq, exists_and_left, exists_const,
    length_xchacha20Encrypt]

/-- What is opened is a message of which the rest is the tag. -/
lemma decrypt_eq_ok {key : Key} {nonce : XNonce} {aad msg out : List UInt8} :
    decrypt key nonce aad msg = ok out ↔ tagLen ≤ msg.length ∧
      poly1305Tag key nonce (msg.take (msg.length - tagLen)) aad =
        ok (msg.drop (msg.length - tagLen)) ∧
      xchacha20Encrypt key nonce (msg.take (msg.length - tagLen)) = out := by
  simp only [decrypt, bind_eq_ok, require_eq_ok, exists_const, constantTimeEq_iff,
    Outcome.ok.injEq, xchacha20Decrypt]
  constructor
  · rintro ⟨hlen, expected, htag, rfl, hout⟩
    exact ⟨hlen, htag, hout⟩
  · rintro ⟨hlen, htag, hout⟩
    exact ⟨hlen, _, htag, rfl, hout⟩

lemma length_of_decrypt {key : Key} {nonce : XNonce} {aad msg out : List UInt8}
    (h : decrypt key nonce aad msg = ok out) : msg.length = out.length + tagLen := by
  obtain ⟨hlen, -, rfl⟩ := decrypt_eq_ok.mp h
  rw [length_xchacha20Encrypt, List.length_take]
  omega

/-- A byte string opens to `m` exactly when it is what `m` is sealed to. -/
lemma decrypt_eq_ok_iff {key : Key} {nonce : XNonce} {aad msg m : List UInt8}
    (hmsg : msg.length ≤ isizeMax) :
    decrypt key nonce aad msg = ok m ↔ encrypt key nonce aad m = ok msg := by
  rw [decrypt_eq_ok, encrypt_eq_ok]
  constructor
  · rintro ⟨hlen, htag, rfl⟩
    refine ⟨msg.drop (msg.length - tagLen), ?_, ?_, ?_⟩
    · rw [xchacha20Encrypt_encrypt]
      exact htag
    · rw [length_xchacha20Encrypt, List.length_take]
      omega
    · rw [xchacha20Encrypt_encrypt, List.take_append_drop]
  · rintro ⟨tag, htag, -, rfl⟩
    have hlen := length_of_poly1305Tag htag
    have hsplit : (xchacha20Encrypt key nonce m ++ tag).length - tagLen =
        (xchacha20Encrypt key nonce m).length := by
      rw [List.length_append, hlen, Nat.add_sub_cancel]
    rw [hsplit, List.take_left, List.drop_left, xchacha20Encrypt_encrypt]
    refine ⟨?_, htag, rfl⟩
    rw [List.length_append, hlen]
    exact Nat.le_add_left _ _

end RustBinary.Aead
