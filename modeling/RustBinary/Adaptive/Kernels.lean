import RustBinary.Adaptive.Texts
import RustBinary.Lib.Lanes

/-!
# The vector kernels

A kernel goes over a slice a register at a time and returns in front of the first register with a
marked lane; what does not fill a register is counted byte by byte.  A load that leaves the slice
is a fault, so that a kernel which comes back with an index has only made loads inside the slice.
-/

namespace RustBinary.Adaptive

open Lib Lib.Outcome Lanes

/-- `scalar_ascii_prefix`. -/
def scalarAsciiPrefix (bytes : List UInt8) : ℕ := scalarIndex (fun byte => !byteIsAscii byte) bytes

/-- A load of `lanes` bytes at `offset` that does not lie inside the slice. -/
structure LoadFault where
  offset : ℕ
  lanes : ℕ
deriving DecidableEq, Repr

/-- `_mm256_loadu_si256`, `_mm_loadu_si128` and `vld1q_u8`. -/
def loadu (lanes : ℕ) (bytes : List UInt8) (offset : ℕ) : Outcome LoadFault (Lanes lanes) :=
  if h : offset + lanes ≤ bytes.length then
    .ok ⟨((bytes.drop offset).take lanes).toArray, by simp; omega⟩
  else .err ⟨offset, lanes⟩

lemma loadu_eq {lanes offset : ℕ} {bytes : List UInt8} (h : offset + lanes ≤ bytes.length) :
    ∃ vector, loadu lanes bytes offset = .ok vector ∧
      vector.toList = (bytes.drop offset).take lanes :=
  ⟨_, dif_pos h, rfl⟩

/-! ## The loop -/

/-- The loop of the kernels: `marked` is the first marked lane of a register and `scalar` counts
what is left. -/
def prefixKernel (lanes : ℕ) (marked : Lanes lanes → Option ℕ) (scalar : List UInt8 → ℕ)
    (bytes : List UInt8) : ℕ → ℕ → Outcome LoadFault ℕ
  | 0, _ => .diverge
  | rounds + 1, offset => do
      let stop ← orPanic (checkedAdd offset lanes)
      if stop ≤ bytes.length then
        let vector ← loadu lanes bytes offset
        match marked vector with
        | some index => pure (offset + index)
        -- `offset += lanes`, which is `stop`
        | none => prefixKernel lanes marked scalar bytes rounds stop
      else
        let rest ← orPanic (slice bytes offset bytes.length)
        pure (offset + scalar rest)

/-- The lanes with their top bit, by `movemask` and `trailing_zeros`. -/
def maskedLane {lanes : ℕ} (vector : Lanes lanes) : Option ℕ := lowestBit (movemask vector)

/-- The lanes above 250: in the order of the signed bytes behind a change of the sign bit, those
above 122. -/
def signedLane {lanes : ℕ} (vector : Lanes lanes) : Option ℕ :=
  let unsignedOrder := Lanes.xor vector (set1 0x80)
  lowestBit (movemask (gtSigned unsignedOrder (set1 122)))

/-- The lanes above `threshold`, by `vcgtq_u8` and a look at the lanes in memory. -/
def unsignedLane (threshold : UInt8) {lanes : ℕ} (vector : Lanes lanes) : Option ℕ :=
  (gtUnsigned vector (set1 threshold)).toList.findIdx? fun lane => lane ≠ 0

/-- A kernel on a slice, every round of which goes forward by a register. -/
def runKernel (lanes : ℕ) (marked : Lanes lanes → Option ℕ) (scalar : List UInt8 → ℕ)
    (bytes : Slice 1 UInt8) : Outcome LoadFault ℕ :=
  prefixKernel lanes marked scalar bytes.elems (bytes.elems.length + 1) 0

/-- `ascii_prefix_avx2`. -/
def asciiPrefixAvx2 : Slice 1 UInt8 → Outcome LoadFault ℕ :=
  runKernel 32 maskedLane scalarAsciiPrefix

/-- `ascii_prefix_sse2`. -/
def asciiPrefixSse2 : Slice 1 UInt8 → Outcome LoadFault ℕ :=
  runKernel 16 maskedLane scalarAsciiPrefix

/-- `plain_prefix_avx2`. -/
def plainPrefixAvx2 : Slice 1 UInt8 → Outcome LoadFault ℕ :=
  runKernel 32 signedLane scalarPlainPrefix

/-- `plain_prefix_sse2`. -/
def plainPrefixSse2 : Slice 1 UInt8 → Outcome LoadFault ℕ :=
  runKernel 16 signedLane scalarPlainPrefix

/-- `ascii_prefix_neon`. -/
def asciiPrefixNeon : Slice 1 UInt8 → Outcome LoadFault ℕ :=
  runKernel 16 (unsignedLane 127) scalarAsciiPrefix

/-- `plain_prefix_neon`. -/
def plainPrefixNeon : Slice 1 UInt8 → Outcome LoadFault ℕ :=
  runKernel 16 (unsignedLane 250) scalarPlainPrefix

/-! ## Marked lanes are special bytes -/

lemma maskedLane_eq {lanes : ℕ} (h : lanes ≤ 32) (vector : Lanes lanes) :
    maskedLane vector = vector.toList.findIdx? fun byte => !byteIsAscii byte := by
  have htop : laneTop = fun byte => !byteIsAscii byte := funext topBit_eq
  rw [maskedLane, lowestBit_movemask h, htop]

lemma signedLane_eq {lanes : ℕ} (h : lanes ≤ 32) (vector : Lanes lanes) :
    signedLane vector = vector.toList.findIdx? fun byte => 250 < byte := by
  rw [signedLane, lowestBit_movemask h, gtSigned, findIdx?_zipWith_set1, Lanes.xor,
    findIdx?_zipWith_set1]
  congr 1
  funext byte
  rw [laneTop_laneOf]
  exact signedMarker_eq byte

lemma unsignedLane_eq (threshold : UInt8) {lanes : ℕ} (vector : Lanes lanes) :
    unsignedLane threshold vector = vector.toList.findIdx? fun byte => threshold < byte := by
  rw [unsignedLane, gtUnsigned, findIdx?_zipWith_set1]
  congr 1
  funext byte
  exact laneOf_ne_zero _

/-! ## What a kernel returns -/

/-- From a position in the slice a kernel counts to the first special byte behind it. -/
lemma prefixKernel_eq {lanes : ℕ} {marked : Lanes lanes → Option ℕ} {special : UInt8 → Bool}
    {bytes : List UInt8} (hlanes : 0 < lanes) (hsmall : lanes ≤ 32)
    (hlen : bytes.length ≤ isizeMax)
    (hmarked : ∀ vector, marked vector = vector.toList.findIdx? special) {rounds offset : ℕ}
    (hoffset : offset ≤ bytes.length) (hrounds : bytes.length < rounds + offset) :
    prefixKernel lanes marked (scalarIndex special) bytes rounds offset =
      .ok (offset + vectorIndex lanes special special rounds (bytes.drop offset)) := by
  induction rounds generalizing offset with
  | zero => omega
  | succ rounds ih =>
      have hstop : checkedAdd offset lanes = some (offset + lanes) := by
        refine if_pos ?_
        have : isizeMax + 32 ≤ u64Max := by decide
        omega
      rw [prefixKernel, hstop, orPanic_some, ok_bind, vectorIndex, List.length_drop]
      by_cases hfull : offset + lanes ≤ bytes.length
      · obtain ⟨vector, hload, hvector⟩ := loadu_eq hfull
        rw [if_pos hfull, if_pos (by omega), hload, ok_bind, hmarked, hvector]
        cases ((bytes.drop offset).take lanes).findIdx? special with
        | some index => rfl
        | none =>
            dsimp only
            rw [ih hfull (by omega), List.drop_drop, Nat.add_assoc]
      · have hrest : slice bytes offset bytes.length = some (bytes.drop offset) :=
          slice_eq_some.mpr ⟨hoffset, le_rfl, List.take_of_length_le (by simp)⟩
        rw [if_neg hfull, if_neg (by omega), hrest]
        rfl

lemma runKernel_eq {lanes : ℕ} {marked : Lanes lanes → Option ℕ} {special : UInt8 → Bool}
    (hlanes : 0 < lanes) (hsmall : lanes ≤ 32)
    (hmarked : ∀ vector, marked vector = vector.toList.findIdx? special) (bytes : Slice 1 UInt8) :
    runKernel lanes marked (scalarIndex special) bytes = .ok (scalarIndex special bytes.elems) := by
  have hlen : bytes.elems.length ≤ isizeMax := by
    have := bytes.length_le
    omega
  rw [runKernel, prefixKernel_eq hlanes hsmall hlen hmarked (Nat.zero_le _) (by omega),
    vectorIndex_eq (fun _ => rfl), List.drop_zero, Nat.zero_add]

lemma plainPrefixAvx2_eq (bytes : Slice 1 UInt8) :
    plainPrefixAvx2 bytes = .ok (scalarPlainPrefix bytes.elems) :=
  runKernel_eq (by omega) le_rfl (signedLane_eq le_rfl) bytes

lemma plainPrefixSse2_eq (bytes : Slice 1 UInt8) :
    plainPrefixSse2 bytes = .ok (scalarPlainPrefix bytes.elems) :=
  runKernel_eq (by omega) (by omega) (signedLane_eq (by omega)) bytes

lemma plainPrefixNeon_eq (bytes : Slice 1 UInt8) :
    plainPrefixNeon bytes = .ok (scalarPlainPrefix bytes.elems) :=
  runKernel_eq (by omega) (by omega) (unsignedLane_eq 250) bytes

lemma asciiPrefixAvx2_eq (bytes : Slice 1 UInt8) :
    asciiPrefixAvx2 bytes = .ok (scalarAsciiPrefix bytes.elems) :=
  runKernel_eq (by omega) le_rfl (maskedLane_eq le_rfl) bytes

lemma asciiPrefixSse2_eq (bytes : Slice 1 UInt8) :
    asciiPrefixSse2 bytes = .ok (scalarAsciiPrefix bytes.elems) :=
  runKernel_eq (by omega) (by omega) (maskedLane_eq (by omega)) bytes

lemma asciiPrefixNeon_eq (bytes : Slice 1 UInt8) :
    asciiPrefixNeon bytes = .ok (scalarAsciiPrefix bytes.elems) := by
  refine runKernel_eq (by omega) (by omega) (fun vector => ?_) bytes
  rw [unsignedLane_eq, funext above_eq]

/-- The kernels make no load outside the slice and find the index that the scalar functions
find. -/
theorem kernels_eq_scalar (bytes : Slice 1 UInt8) :
    (plainPrefixAvx2 bytes = .ok (scalarPlainPrefix bytes.elems) ∧
      plainPrefixSse2 bytes = .ok (scalarPlainPrefix bytes.elems) ∧
      plainPrefixNeon bytes = .ok (scalarPlainPrefix bytes.elems)) ∧
    asciiPrefixAvx2 bytes = .ok (scalarAsciiPrefix bytes.elems) ∧
      asciiPrefixSse2 bytes = .ok (scalarAsciiPrefix bytes.elems) ∧
      asciiPrefixNeon bytes = .ok (scalarAsciiPrefix bytes.elems) :=
  ⟨⟨plainPrefixAvx2_eq bytes, plainPrefixSse2_eq bytes, plainPrefixNeon_eq bytes⟩,
    asciiPrefixAvx2_eq bytes, asciiPrefixSse2_eq bytes, asciiPrefixNeon_eq bytes⟩

/-! ## Dispatch -/

/-- The kernel that `plain_varint_prefix` goes to. -/
def plainKernel (backend : Backend) (bytes : Slice 1 UInt8) : Outcome LoadFault ℕ :=
  match backend with
  | .avx2 => plainPrefixAvx2 bytes
  | .sse2 => plainPrefixSse2 bytes
  | .neon => plainPrefixNeon bytes
  | .scalar => .ok (scalarPlainPrefix bytes.elems)
  | .portable => .ok (plainVarintPrefix .portable bytes.elems)

/-- The kernel that `first_non_ascii` goes to. -/
def asciiKernel (backend : Backend) (bytes : Slice 1 UInt8) : Outcome LoadFault ℕ :=
  match backend with
  | .avx2 => asciiPrefixAvx2 bytes
  | .sse2 => asciiPrefixSse2 bytes
  | .neon => asciiPrefixNeon bytes
  | .scalar | .portable => .ok (scalarAsciiPrefix bytes.elems)

/-- What the codecs take the scan for is what the kernels do. -/
theorem plainKernel_eq (backend : Backend) (bytes : Slice 1 UInt8) :
    plainKernel backend bytes = .ok (plainVarintPrefix backend bytes.elems) := by
  cases backend with
  | portable => rfl
  | scalar => rfl
  | sse2 =>
      rw [plainKernel, plainPrefixSse2_eq, plainVarintPrefix, vectorPrefix_eq signedMarker_eq]
  | avx2 =>
      rw [plainKernel, plainPrefixAvx2_eq, plainVarintPrefix, vectorPrefix_eq signedMarker_eq]
  | neon =>
      rw [plainKernel, plainPrefixNeon_eq, plainVarintPrefix, vectorPrefix_eq fun _ => rfl]

theorem asciiKernel_eq (backend : Backend) (bytes : Slice 1 UInt8) :
    asciiKernel backend bytes = .ok (firstNonAscii backend bytes.elems) := by
  cases backend with
  | portable => rfl
  | scalar => rfl
  | sse2 => rw [asciiKernel, asciiPrefixSse2_eq, firstNonAscii, vectorIndex_eq topBit_eq]; rfl
  | avx2 => rw [asciiKernel, asciiPrefixAvx2_eq, firstNonAscii, vectorIndex_eq topBit_eq]; rfl
  | neon => rw [asciiKernel, asciiPrefixNeon_eq, firstNonAscii, vectorIndex_eq above_eq]; rfl

end RustBinary.Adaptive
