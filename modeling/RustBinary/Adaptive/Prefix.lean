import RustBinary.Core.Config

/-!
# The plain prefix of an input

A byte up to 250 is a varint of its own.  How many of them an input begins with is counted byte
by byte or, with vector instructions, a vector at a time; every backend counts the same.
-/

namespace RustBinary.Adaptive

/-- `SimdBackend`, with the plain iterator that stands in when the feature is off. -/
inductive Backend where
  | portable
  | scalar
  | sse2
  | avx2
  | neon
deriving DecidableEq, Repr

/-- `position(|byte| *byte > 250)`, or the length. -/
def scalarPlainPrefix (bytes : List UInt8) : ℕ :=
  ((bytes.findIdx? fun byte => 250 < byte)).getD bytes.length

/-- Vectors of `lanes` bytes, each compared by `marker`; what does not fill a vector is counted
byte by byte. -/
def vectorPrefix (lanes : ℕ) (marker : UInt8 → Bool) : ℕ → List UInt8 → ℕ
  | 0, bytes => scalarPlainPrefix bytes
  | rounds + 1, bytes =>
      if lanes ≤ bytes.length then
        match (bytes.take lanes).findIdx? marker with
        | some index => index
        | none => lanes + vectorPrefix lanes marker rounds (bytes.drop lanes)
      else scalarPlainPrefix bytes

/-- The signed comparison of `plain_prefix_avx2` and `plain_prefix_sse2`, behind the change of the
sign bit. -/
def signedMarker (byte : UInt8) : Bool := (122 : Int8) < (byte ^^^ 0x80).toInt8

/-- `plain_varint_prefix`. -/
def plainVarintPrefix (backend : Backend) (bytes : List UInt8) : ℕ :=
  match backend with
  | .portable => (bytes.takeWhile fun byte => byte ≤ 250).length
  | .scalar => scalarPlainPrefix bytes
  | .sse2 => vectorPrefix 16 signedMarker bytes.length bytes
  | .avx2 => vectorPrefix 32 signedMarker bytes.length bytes
  | .neon => vectorPrefix 16 (fun byte => 250 < byte) bytes.length bytes

lemma scalarPlainPrefix_eq (bytes : List UInt8) :
    scalarPlainPrefix bytes = (bytes.takeWhile fun byte => byte ≤ 250).length := by
  induction bytes with
  | nil => rfl
  | cons byte bytes ih =>
      rw [scalarPlainPrefix, List.findIdx?_cons, List.takeWhile_cons]
      by_cases h : 250 < byte
      · rw [if_pos (by simpa using h), if_neg (by simpa using h)]
        rfl
      · rw [if_neg (by simpa using h), if_pos (by simpa using h), List.length_cons,
          List.length_cons, ← ih, scalarPlainPrefix]
        cases bytes.findIdx? fun byte => decide (250 < byte) <;> rfl

/-- The position of the first byte that is `special`, or the length. -/
def scalarIndex (special : UInt8 → Bool) (bytes : List UInt8) : ℕ :=
  (bytes.findIdx? special).getD bytes.length

/-- Vectors of `lanes` bytes, whose special bytes are told by `marker`; what does not fill a vector
is looked at byte by byte. -/
def vectorIndex (lanes : ℕ) (marker special : UInt8 → Bool) : ℕ → List UInt8 → ℕ
  | 0, bytes => scalarIndex special bytes
  | rounds + 1, bytes =>
      if lanes ≤ bytes.length then
        match (bytes.take lanes).findIdx? marker with
        | some index => index
        | none => lanes + vectorIndex lanes marker special rounds (bytes.drop lanes)
      else scalarIndex special bytes

/-- A comparison that finds the special bytes finds the first of them. -/
lemma vectorIndex_eq {lanes : ℕ} {marker special : UInt8 → Bool}
    (hmarker : ∀ byte, marker byte = special byte) (rounds : ℕ) (bytes : List UInt8) :
    vectorIndex lanes marker special rounds bytes = scalarIndex special bytes := by
  obtain rfl : marker = special := funext hmarker
  induction rounds generalizing bytes with
  | zero => rfl
  | succ rounds ih =>
      rw [vectorIndex]
      split
      · next hlen =>
          have hsplit := List.take_append_drop lanes bytes
          have htake : (bytes.take lanes).length = lanes := by
            rw [List.length_take]
            omega
          conv_rhs => rw [← hsplit]
          rw [scalarIndex, List.findIdx?_append]
          cases hfind : (bytes.take lanes).findIdx? marker with
          | some index => rfl
          | none =>
              dsimp only
              rw [ih, scalarIndex, htake, List.length_append, htake, Option.none_or]
              cases (bytes.drop lanes).findIdx? marker with
              | none => rfl
              | some index => exact Nat.add_comm _ _
      · rfl

/-- A comparison that finds the bytes above 250 counts the plain prefix. -/
lemma vectorPrefix_eq {lanes : ℕ} {marker : UInt8 → Bool}
    (hmarker : ∀ byte, marker byte = decide (250 < byte)) (rounds : ℕ) (bytes : List UInt8) :
    vectorPrefix lanes marker rounds bytes = scalarPlainPrefix bytes := by
  have hindex : vectorPrefix lanes marker rounds bytes =
      vectorIndex lanes marker (fun byte => 250 < byte) rounds bytes := by
    induction rounds generalizing bytes with
    | zero => rfl
    | succ rounds ih =>
        rw [vectorPrefix, vectorIndex, ih]
        rfl
  rw [hindex, vectorIndex_eq hmarker]
  rfl

lemma signedMarker_eq (byte : UInt8) : signedMarker byte = decide (250 < byte) := by
  have h : ∀ n : Fin 256, signedMarker (UInt8.ofNat n) = decide (250 < UInt8.ofNat n) := by
    decide +kernel
  have := h ⟨byte.toNat, byte.toNat_lt⟩
  rwa [UInt8.ofNat_toNat] at this

/-- Every backend counts the bytes in front of the first marker. -/
lemma plainVarintPrefix_eq (backend : Backend) (bytes : List UInt8) :
    plainVarintPrefix backend bytes = (bytes.takeWhile fun byte => byte ≤ 250).length := by
  rw [← scalarPlainPrefix_eq]
  cases backend with
  | portable => exact (scalarPlainPrefix_eq bytes).symm
  | scalar => rfl
  | sse2 => exact vectorPrefix_eq signedMarker_eq _ bytes
  | avx2 => exact vectorPrefix_eq signedMarker_eq _ bytes
  | neon => exact vectorPrefix_eq (fun _ => rfl) _ bytes

end RustBinary.Adaptive
