import RustBinary.Native.Encoder
import RustBinary.Core.Slice

/-!
# Sinks

The sinks that the crate comes with: a growing vector, caller-owned memory, and a counter.
-/

namespace RustBinary.Native

open Lib Lib.Act

/-- A vector that spans no more than `isize::MAX` bytes. -/
structure VecWriter where
  output : List UInt8
deriving DecidableEq, Repr

/-- `extend_from_slice` aborts when the capacity overflows. -/
instance : EncodeWriter VecWriter where
  writeAll bytes := do
    let w ← get
    if w.output.length + bytes.length ≤ isizeMax then
      modify fun w => { w with output := w.output ++ bytes }
    else Act.panic

/-- `SliceWriter`: writes past the end are counted but discarded. -/
structure SliceWriter where
  output : List UInt8
  required : ℕ
deriving DecidableEq, Repr

namespace SliceWriter

def new (output : List UInt8) : SliceWriter := ⟨output, 0⟩

/-- The copy of `write_all`. -/
def copy (w : SliceWriter) (bytes : List UInt8) : SliceWriter :=
  let start := min w.required w.output.length
  let writable := min (w.output.length - start) bytes.length
  { w with
    output := w.output.take start ++ bytes.take writable ++ w.output.drop (start + writable) }

instance : EncodeWriter SliceWriter where
  writeAll bytes := do
    modify fun w => w.copy bytes
    let w ← get
    let required ← okOr (checkedAdd w.required bytes.length) (.sizeLimit u64Max)
    modify fun w => { w with required := required }

def finish (w : SliceWriter) : Outcome Error ℕ :=
  if w.output.length < w.required then .err (.bufferTooSmall w.required w.output.length)
  else .ok w.required

/-- The writer over `output` that has been given `bytes`. -/
def after (output bytes : List UInt8) : SliceWriter :=
  ⟨bytes.take output.length ++ output.drop bytes.length, bytes.length⟩

@[simp] lemma length_after (output bytes : List UInt8) :
    (after output bytes).output.length = output.length := by
  simp only [after, List.length_append, List.length_take, List.length_drop]
  omega

lemma new_eq_after (output : List UInt8) : new output = after output [] := by
  simp [new, after]

lemma copy_after (output xs ys : List UInt8) :
    ((after output xs).copy ys).output = (after output (xs ++ ys)).output := by
  have hlen := length_after output xs
  rw [copy]
  dsimp only
  rw [hlen]
  simp only [after, List.length_append]
  rcases Nat.lt_or_ge xs.length output.length with h | h
  · -- there is room behind what has been written
    rw [Nat.min_eq_left (Nat.le_of_lt h), List.take_of_length_le (Nat.le_of_lt h),
      List.take_left, List.take_append, List.take_of_length_le (Nat.le_of_lt h), List.append_assoc,
      List.append_assoc, List.drop_append, List.drop_of_length_le (by omega), List.nil_append,
      List.drop_drop, show xs.length + min (output.length - xs.length) ys.length - xs.length
        = min (output.length - xs.length) ys.length by omega]
    congr 1
    rcases Nat.le_total (output.length - xs.length) ys.length with hle | hle
    · rw [Nat.min_eq_left hle, List.drop_of_length_le (by omega), List.drop_of_length_le (by omega)]
    · rw [Nat.min_eq_right hle, List.take_of_length_le (Nat.le_refl _),
        List.take_of_length_le hle]
  · -- the memory is full already
    have hdrop : output.drop xs.length = [] := List.drop_of_length_le h
    have hdrop' : output.drop (xs.length + ys.length) = [] := List.drop_of_length_le (by omega)
    have htake : (xs.take output.length).length = output.length := List.length_take_of_le h
    rw [Nat.min_eq_right h, Nat.sub_self, Nat.zero_min, List.take_zero, List.append_nil,
      Nat.add_zero, hdrop, hdrop', List.append_nil, List.append_nil,
      List.take_append_of_le_length h, List.drop_of_length_le (Nat.le_of_eq htake),
      List.append_nil, List.take_take, Nat.min_self]

lemma writeAll_after {output xs ys : List UInt8} (h : xs.length + ys.length ≤ u64Max) :
    EncodeWriter.writeAll ys (after output xs) = (.ok (), after output (xs ++ ys)) := by
  have hcopy := copy_after output xs ys
  change (modify _ >>= _) (after output xs) = _
  rw [modify_bind_run, get_bind_run,
    show ((after output xs).copy ys).required = xs.length from rfl, checkedAdd, if_pos h,
    okOr_some, pure_bind_run, modify_run]
  congr 1
  rw [SliceWriter.mk.injEq]
  exact ⟨hcopy, List.length_append.symm⟩

end SliceWriter

/-- `CountWriter`. -/
structure CountWriter where
  written : ℕ
deriving DecidableEq, Repr

namespace CountWriter

def new : CountWriter := ⟨0⟩

instance : EncodeWriter CountWriter where
  writeAll bytes := do
    if bytes.length ≤ u64Max then
      let w ← get
      let written ← okOr (checkedAdd w.written bytes.length) (.sizeLimit u64Max)
      modify fun w => { w with written := written }
    else throw (.integerOverflow "u64")

lemma writeAll_run {w : CountWriter} {bytes : List UInt8} (h : bytes.length ≤ u64Max) :
    EncodeWriter.writeAll bytes w =
      if w.written + bytes.length ≤ u64Max then (.ok (), ⟨w.written + bytes.length⟩)
      else (.err (.sizeLimit u64Max), w) := by
  change (if bytes.length ≤ u64Max then _ else _ : Act CountWriter Error Unit) w = _
  rw [if_pos h, get_bind_run, checkedAdd]
  split
  · next hle => rw [okOr_some, pure_bind_run, modify_run]
  · next hle => rw [okOr_none, throw_bind_run]

end CountWriter

end RustBinary.Native
