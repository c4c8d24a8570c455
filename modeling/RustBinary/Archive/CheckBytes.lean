import RustBinary.Archive.Accessors
import RustBinary.Lib.Outcome

/-!
# The structural validator

`CheckBytes` as the `Archive` derive generates it: a walk over the fields, each from the end of
the one in front rounded up to its alignment, with a check of every string and vector, and of the
elements of every `Vec` of structs.  A struct can hold a `Vec` of itself, so that the walk is given
a number of rounds; the length of the payload is always enough (`checkArchive_returned`).
-/

namespace RustBinary.Archive

open Lib Lib.Outcome

/-! ## Strings and vectors -/

/-- `checked_mul`. -/
def checkedMul (a b : ℕ) : Option ℕ := if a * b ≤ u64Max then some (a * b) else none

/-- `checked_field`: the target, with its `u32` in the payload. -/
def checkedField (bytes : List UInt8) (fieldPos : ℕ) : Option ℕ := do
  let target ← resolve bytes fieldPos
  if target + 4 ≤ bytes.length then some target else none

/-- `check_string_field`. -/
def checkStringField (bytes : List UInt8) (fieldPos : ℕ) : Outcome String Unit := do
  let target ← okOr (checkedField bytes fieldPos) "string offset out of bounds"
  let len ← okOr (bodyCount bytes target) "string length out of bounds"
  let body := target + 4
  let stop ← okOr (checkedAdd body len) "string body length overflow"
  require (stop ≤ bytes.length) "string body out of bounds"
  let text ← orPanic (slice bytes body stop)
  require ((fromUtf8 text).isSome = true) "invalid UTF-8 in archived string"

/-- What `check_vec_field` and `check_vec_nested` begin with: the count, and the position of the
elements, which are in the payload. -/
def checkVecBody (bytes : List UInt8) (fieldPos elementSize elementAlign : ℕ) :
    Outcome String (ℕ × ℕ) := do
  let target ← okOr (checkedField bytes fieldPos) "vec offset out of bounds"
  let count ← okOr (bodyCount bytes target) "vec count out of bounds"
  let size ← okOr (checkedMul count elementSize) "vec body size overflow"
  let body := roundUp (target + 4) elementAlign
  let stop ← okOr (checkedAdd body size) "vec body overflow"
  require (stop ≤ bytes.length) "vec body out of bounds"
  pure (count, body)

/-- `check_vec_field`. -/
def checkVecField (bytes : List UInt8) (fieldPos elementSize elementAlign : ℕ) :
    Outcome String Unit := do
  let _ ← checkVecBody bytes fieldPos elementSize elementAlign
  pure ()

/-- The loop of `check_vec_nested`, from the element `i` on. -/
def checkElements (checkAt : ℕ → Outcome String Unit) (body elementSize : ℕ) :
    ℕ → ℕ → Outcome String Unit
  | 0, _ => pure ()
  | n + 1, i => do
      let start ← okOr (checkedMul i elementSize) "vec element offset overflow"
      let elementBase ← okOr (checkedAdd body start) "vec element offset overflow"
      checkAt elementBase
      checkElements checkAt body elementSize n (i + 1)

/-- `check_vec_nested`. -/
def checkVecNested (bytes : List UInt8) (checkAt : ℕ → Outcome String Unit)
    (fieldPos elementSize elementAlign : ℕ) : Outcome String Unit := do
  let (count, body) ← checkVecBody bytes fieldPos elementSize elementAlign
  checkElements checkAt body elementSize count 0

/-! ## Structs -/

/-- The check of a pointer; `checkAt` checks the structs of `env`. -/
def Pointer.check (env : ℕ → Fields) (bytes : List UInt8)
    (checkAt : ℕ → ℕ → Outcome String Unit) : Pointer → ℕ → Outcome String Unit
  | string, fieldPos => checkStringField bytes fieldPos
  | vecScalar s, fieldPos => checkVecField bytes fieldPos s.size s.size
  | vecStruct i, fieldPos => checkVecNested bytes (checkAt i) fieldPos (env i).size (env i).align

/-- The body of `check_at`, from the offset on. -/
def Fields.check (env : ℕ → Fields) (bytes : List UInt8)
    (checkAt : ℕ → ℕ → Outcome String Unit) : Fields → ℕ → Outcome String Unit
  | nil, _ => pure ()
  | scalar s rest, offset => rest.check env bytes checkAt (roundUp offset s.size + s.size)
  | pointer p rest, offset => do
      p.check env bytes checkAt (roundUp offset ptrSize)
      rest.check env bytes checkAt (roundUp offset ptrSize + ptrSize)
  | nested inner rest, offset => do
      inner.check env bytes checkAt (roundUp offset inner.align)
      rest.check env bytes checkAt (roundUp offset inner.align + inner.size)

/-- `check_at` of a struct of `env` at the position `base`. -/
def checkAt (env : ℕ → Fields) (bytes : List UInt8) : ℕ → ℕ → ℕ → Outcome String Unit
  | 0, _, _ => .diverge
  | rounds + 1, i, base => (env i).check env bytes (checkAt env bytes rounds) base

/-- `check_at` of the root, at the position 0. -/
def checkArchive (env : ℕ → Fields) (fs : Fields) (bytes : List UInt8) (rounds : ℕ) :
    Outcome String Unit :=
  fs.check env bytes (checkAt env bytes rounds) 0

/-! ## What the checks say -/

variable {env : ℕ → Fields} {bytes : List UInt8} {fieldPos : ℕ}

lemma checkedMul_eq_some {a b c : ℕ} (h : checkedMul a b = some c) : c = a * b := by
  rw [checkedMul] at h
  split at h
  · exact (Option.some.inj h).symm
  · cases h

lemma checkedField_eq_some {target : ℕ} (h : checkedField bytes fieldPos = some target) :
    resolve bytes fieldPos = some target ∧ fieldPos ≤ target := by
  rw [checkedField, Option.bind_eq_bind, Option.bind_eq_some_iff] at h
  obtain ⟨target, hresolve, h⟩ := h
  split at h
  · obtain rfl := Option.some.inj h
    refine ⟨hresolve, ?_⟩
    rw [resolve, Option.bind_eq_bind, Option.bind_eq_some_iff] at hresolve
    obtain ⟨word, -, hword⟩ := hresolve
    split at hword
    · rw [← Option.some.inj hword]
      exact Nat.le_add_right _ _
    · cases hword
  · cases h

lemma of_checkStringField (h : checkStringField bytes fieldPos = .ok ()) :
    ∃ raw text, readString bytes fieldPos = some raw ∧ fromUtf8 raw = some text := by
  rw [checkStringField] at h
  obtain ⟨target, htarget, h⟩ := bind_eq_ok.mp h
  obtain ⟨len, hlen, h⟩ := bind_eq_ok.mp h
  obtain ⟨stop, hstop, h⟩ := bind_eq_ok.mp h
  obtain ⟨_, _, h⟩ := bind_eq_ok.mp h
  obtain ⟨raw, hraw, h⟩ := bind_eq_ok.mp h
  obtain ⟨text, htext⟩ := Option.isSome_iff_exists.mp (require_eq_ok.mp h)
  obtain rfl := checkedAdd_eq_some (okOr_eq_ok.mp hstop)
  refine ⟨raw, text, ?_, htext⟩
  rw [readString, (checkedField_eq_some (okOr_eq_ok.mp htarget)).1, Option.bind_eq_bind,
    Option.bind_some, okOr_eq_ok.mp hlen, Option.bind_some]
  exact orPanic_eq_ok.mp hraw

lemma of_checkVecBody {size align count body : ℕ}
    (h : checkVecBody bytes fieldPos size align = .ok (count, body)) :
    readVec bytes align fieldPos = some (body, count) ∧ fieldPos < body ∧
      body + count * size ≤ bytes.length := by
  rw [checkVecBody] at h
  obtain ⟨target, htarget, h⟩ := bind_eq_ok.mp h
  obtain ⟨count', hcount, h⟩ := bind_eq_ok.mp h
  obtain ⟨len, hlen, h⟩ := bind_eq_ok.mp h
  obtain ⟨stop, hstop, h⟩ := bind_eq_ok.mp h
  obtain ⟨_, hle, h⟩ := bind_eq_ok.mp h
  cases h
  obtain rfl := checkedMul_eq_some (okOr_eq_ok.mp hlen)
  obtain rfl := checkedAdd_eq_some (okOr_eq_ok.mp hstop)
  obtain ⟨hresolve, hfield⟩ := checkedField_eq_some (okOr_eq_ok.mp htarget)
  have hround := le_roundUp (target + 4) align
  refine ⟨?_, by omega, require_eq_ok.mp hle⟩
  rw [readVec, hresolve, Option.bind_eq_bind, Option.bind_some, okOr_eq_ok.mp hcount,
    Option.bind_some]

lemma of_checkElements {check : ℕ → Outcome String Unit} {body size n i : ℕ}
    (h : checkElements check body size n i = .ok ()) {k : ℕ} (hk : k < n) :
    check (body + (i + k) * size) = .ok () := by
  induction n generalizing i k with
  | zero => exact absurd hk (Nat.not_lt_zero k)
  | succ n ih =>
      rw [checkElements] at h
      obtain ⟨start, hstart, h⟩ := bind_eq_ok.mp h
      obtain ⟨base, hbase, h⟩ := bind_eq_ok.mp h
      obtain rfl := checkedMul_eq_some (okOr_eq_ok.mp hstart)
      obtain rfl := checkedAdd_eq_some (okOr_eq_ok.mp hbase)
      obtain ⟨_, hcheck, h⟩ := bind_eq_ok.mp h
      cases k with
      | zero => exact hcheck
      | succ k =>
          have hnext := ih h (Nat.lt_of_succ_lt_succ hk)
          rwa [Nat.add_assoc, Nat.add_comm 1 k] at hnext

/-! ## Termination -/

lemma checkStringField_returned (bytes : List UInt8) (fieldPos : ℕ) :
    (checkStringField bytes fieldPos).Returned := by
  rw [checkStringField]
  refine bind_returned (okOr_returned _ _) fun target => ?_
  refine bind_returned (okOr_returned _ _) fun len => ?_
  refine bind_returned_of (okOr_returned _ _) fun stop hstop => ?_
  refine bind_returned_of (require_returned _ _) fun _ hle => ?_
  obtain rfl := checkedAdd_eq_some (okOr_eq_ok.mp hstop)
  -- the text is in the payload, so that its slice does not abort
  have hslice : slice bytes (target + 4) (target + 4 + len) = some _ :=
    slice_eq_some.mpr ⟨Nat.le_add_right _ _, require_eq_ok.mp hle, rfl⟩
  show (orPanic (slice bytes (target + 4) (target + 4 + len)) >>= _).Returned
  rw [hslice]
  exact require_returned _ _

lemma checkVecBody_returned (bytes : List UInt8) (fieldPos size align : ℕ) :
    (checkVecBody bytes fieldPos size align).Returned := by
  rw [checkVecBody]
  iterate 4 refine bind_returned (okOr_returned _ _) fun _ => ?_
  exact bind_returned (require_returned _ _) fun _ => trivial

/-- Two checks of structs that agree on all positions behind `base` in the payload. -/
def AgreeBehind (bytes : List UInt8) (base : ℕ) (check check' : ℕ → ℕ → Outcome String Unit) :
    Prop :=
  ∀ i b, base < b → b ≤ bytes.length → check i b = check' i b

/-- All structs behind `base` in the payload are checked in the rounds that there are. -/
def ReturnsBehind (bytes : List UInt8) (base : ℕ) (check : ℕ → ℕ → Outcome String Unit) : Prop :=
  ∀ i b, base < b → b ≤ bytes.length → (check i b).Returned

lemma checkElements_congr {check check' : ℕ → Outcome String Unit} {body size n i : ℕ}
    (h : ∀ k < n, check (body + (i + k) * size) = check' (body + (i + k) * size)) :
    checkElements check body size n i = checkElements check' body size n i := by
  induction n generalizing i with
  | zero => rfl
  | succ n ih =>
      have hnext : ∀ k < n, check (body + (i + 1 + k) * size)
          = check' (body + (i + 1 + k) * size) := by
        intro k hk
        have := h (k + 1) (Nat.succ_lt_succ hk)
        rwa [Nat.add_comm k 1, ← Nat.add_assoc] at this
      rw [checkElements, checkElements, ih hnext]
      cases hstart : checkedMul i size with
      | none => rfl
      | some start =>
          rw [okOr_some, ok_bind, ok_bind]
          cases hbase : checkedAdd body start with
          | none => rfl
          | some base =>
              obtain rfl := checkedMul_eq_some hstart
              obtain rfl := checkedAdd_eq_some hbase
              have hfirst := h 0 (Nat.succ_pos n)
              rw [Nat.add_zero] at hfirst
              rw [okOr_some, ok_bind, ok_bind, hfirst]

lemma checkElements_returned {check : ℕ → Outcome String Unit} {body size n i : ℕ}
    (h : ∀ k < n, (check (body + (i + k) * size)).Returned) :
    (checkElements check body size n i).Returned := by
  induction n generalizing i with
  | zero => trivial
  | succ n ih =>
      have hnext : ∀ k < n, (check (body + (i + 1 + k) * size)).Returned := by
        intro k hk
        have := h (k + 1) (Nat.succ_lt_succ hk)
        rwa [Nat.add_comm k 1, ← Nat.add_assoc] at this
      rw [checkElements]
      refine bind_returned_of (okOr_returned _ _) fun start hstart => ?_
      refine bind_returned_of (okOr_returned _ _) fun base hbase => ?_
      obtain rfl := checkedMul_eq_some (okOr_eq_ok.mp hstart)
      obtain rfl := checkedAdd_eq_some (okOr_eq_ok.mp hbase)
      exact bind_returned (h 0 (Nat.succ_pos n)) fun _ => ih hnext

/-- The elements of a checked `Vec` are behind its pointer and in the payload. -/
lemma element_behind {size align count body k : ℕ}
    (h : checkVecBody bytes fieldPos size align = .ok (count, body)) (hk : k < count) :
    fieldPos < body + k * size ∧ body + k * size ≤ bytes.length := by
  obtain ⟨-, hpos, hle⟩ := of_checkVecBody h
  have hmul := Nat.mul_le_mul_right size hk.le
  omega

variable {check check' : ℕ → ℕ → Outcome String Unit} {base : ℕ}

lemma Pointer.check_congr (h : AgreeBehind bytes base check check') (p : Pointer)
    (hpos : base ≤ fieldPos) :
    p.check env bytes check fieldPos = p.check env bytes check' fieldPos := by
  cases p with
  | string => rfl
  | vecScalar s => rfl
  | vecStruct i =>
      rw [Pointer.check, Pointer.check, checkVecNested, checkVecNested]
      cases hbody : checkVecBody bytes fieldPos (env i).size (env i).align with
      | ok found =>
          refine checkElements_congr fun k hk => ?_
          have hin := element_behind hbody hk
          rw [Nat.zero_add]
          exact h i _ (by omega) hin.2
      | err e => rfl
      | panic => rfl
      | diverge => rfl

lemma Pointer.check_returned (h : ReturnsBehind bytes base check) (p : Pointer)
    (hpos : base ≤ fieldPos) : (p.check env bytes check fieldPos).Returned := by
  cases p with
  | string => exact checkStringField_returned bytes fieldPos
  | vecScalar s => exact bind_returned (checkVecBody_returned _ _ _ _) fun _ => trivial
  | vecStruct i =>
      rw [Pointer.check, checkVecNested]
      refine bind_returned_of (checkVecBody_returned _ _ _ _) fun found hbody => ?_
      refine checkElements_returned fun k hk => ?_
      have hin := element_behind hbody hk
      rw [Nat.zero_add]
      exact h i _ (by omega) hin.2

lemma Fields.check_congr (h : AgreeBehind bytes base check check') (fs : Fields) {offset : ℕ}
    (hle : base ≤ offset) : fs.check env bytes check offset = fs.check env bytes check' offset := by
  induction fs generalizing offset with
  | nil => rfl
  | scalar s rest ih =>
      have hround := le_roundUp offset s.size
      rw [Fields.check, Fields.check, ih (by omega)]
  | pointer p rest ih =>
      have hround := le_roundUp offset ptrSize
      rw [Fields.check, Fields.check, p.check_congr h (hle.trans hround), ih (by omega)]
  | nested inner rest ihi ih =>
      have hround := le_roundUp offset inner.align
      rw [Fields.check, Fields.check, ihi (hle.trans hround), ih (by omega)]

lemma Fields.check_returned (h : ReturnsBehind bytes base check) (fs : Fields) {offset : ℕ}
    (hle : base ≤ offset) : (fs.check env bytes check offset).Returned := by
  induction fs generalizing offset with
  | nil => trivial
  | scalar s rest ih =>
      have hround := le_roundUp offset s.size
      exact ih (by omega)
  | pointer p rest ih =>
      have hround := le_roundUp offset ptrSize
      exact bind_returned (p.check_returned h (hle.trans hround)) fun _ => ih (by omega)
  | nested inner rest ihi ih =>
      have hround := le_roundUp offset inner.align
      exact bind_returned (ihi (hle.trans hround)) fun _ => ih (by omega)

/-- A struct needs no more rounds than there are bytes behind its position. -/
lemma checkAt_returned {rounds i b : ℕ} (hb : b ≤ bytes.length)
    (hrounds : bytes.length < rounds + b) : (checkAt env bytes rounds i b).Returned := by
  induction rounds generalizing i b with
  | zero => omega
  | succ rounds ih =>
      refine (env i).check_returned (fun j b' hlt hle => ?_) (Nat.le_refl b)
      exact ih hle (by omega)

/-- More rounds do not change the check of a struct. -/
lemma checkAt_congr {rounds rounds' i b : ℕ} (hb : b ≤ bytes.length)
    (hrounds : bytes.length < rounds + b) (hrounds' : bytes.length < rounds' + b) :
    checkAt env bytes rounds i b = checkAt env bytes rounds' i b := by
  induction rounds generalizing rounds' i b with
  | zero => omega
  | succ rounds ih =>
      cases rounds' with
      | zero => omega
      | succ rounds' =>
          refine (env i).check_congr (fun j b' hlt hle => ?_) (Nat.le_refl b)
          exact ih hle (by omega) (by omega)

/-- The walk comes back, and the rounds for the length of the payload are enough. -/
lemma checkArchive_returned (env : ℕ → Fields) (fs : Fields) {rounds : ℕ}
    (h : bytes.length ≤ rounds) :
    (checkArchive env fs bytes rounds).Returned ∧
      checkArchive env fs bytes rounds = checkArchive env fs bytes bytes.length := by
  have hreturns : ReturnsBehind bytes 0 (checkAt env bytes rounds) := fun i b hlt hle =>
    checkAt_returned hle (by omega)
  have hagree : AgreeBehind bytes 0 (checkAt env bytes rounds) (checkAt env bytes bytes.length) :=
    fun i b hlt hle => checkAt_congr hle (by omega) (by omega)
  exact ⟨fs.check_returned hreturns (Nat.le_refl 0), fs.check_congr hagree (Nat.le_refl 0)⟩

end RustBinary.Archive
