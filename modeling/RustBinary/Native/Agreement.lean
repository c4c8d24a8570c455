import RustBinary.Lib.Matching
import RustBinary.Native.Sinks

/-!
# The sinks agree

A value is serialized into a vector, into caller-owned memory, or only counted.  The encoder looks
at its sink nowhere, and none of the three sinks fails on what the encoder lets through, so the
three runs go side by side.
-/

namespace RustBinary.Native

open Lib Lib.Act

/-! ## Values -/

/-- The methods of `FormatEncoder`. -/
inductive Event where
  | beginArray
  | separator
  | endArray
  | beginObject
  | key (text : String)
  | endObject
  | write (value : Scalar)

section Values

variable [Target] {W : Type} [EncodeWriter W]

open Encoder in
/-- The method behind an event. -/
def Event.method : Event → EncTo W Unit
  | beginArray => Encoder.beginArray
  | separator => Encoder.separator
  | endArray => Encoder.endArray
  | beginObject => Encoder.beginObject
  | key text => Encoder.key text
  | endObject => Encoder.endObject
  | write value => value.write

/-- `NsonSerialize::nextencode` of a value: it ends, or makes a call and goes on from what the call
has come back with. -/
inductive Nextencode where
  | done (outcome : Outcome NextjsonError Unit)
  | call (event : Event) (next : Option NextjsonError → Nextencode)

/-- A value on an encoder. -/
def Nextencode.run : Nextencode → EncTo W Unit
  | done outcome => Act.call outcome
  | call event next => do
      let error ← onErr ((fun _ => none) <$> event.method) fun e => pure (some e)
      (next error).run

-- `Error::from_nextjson`, which has the text of an error
variable (fromNextjson : NextjsonError → Error)

/-- `to_writer`, and the writer that it leaves. -/
def toWriter (writer : W) (value : Nextencode) (config : Config) : Outcome Error ℕ × W :=
  match value.run (Encoder.start writer config) with
  | (.ok _, s) =>
      (if s.depth ≠ 0 then .err (.custom "encoder finished inside an unclosed container")
      else .ok s.written, s.writer)
  | (.err e, s) => (.err (s.wireError.getD (fromNextjson e)), s.writer)
  | (.panic, s) => (.panic, s.writer)
  | (.diverge, s) => (.diverge, s.writer)

/-- `serialize`. -/
def serialize (config : Config) (value : Nextencode) : Outcome Error (List UInt8) :=
  match toWriter fromNextjson ([] : List UInt8) value config with
  | (.ok _, output) => .ok output
  | (.err e, _) => .err e
  | (.panic, _) => .panic
  | (.diverge, _) => .diverge

/-- `serialized_size`. -/
def serializedSize (config : Config) (value : Nextencode) : Outcome Error ℕ :=
  (toWriter fromNextjson CountWriter.new value config).1

/-- `serialize_into_slice`, and the memory that it leaves. -/
def serializeIntoSlice (config : Config) (output : List UInt8) (value : Nextencode) :
    Outcome Error ℕ × List UInt8 :=
  match toWriter fromNextjson (SliceWriter.new output) value config with
  | (.ok _, writer) => (writer.finish, writer.output)
  | (.err e, writer) => (.err e, writer.output)
  | (.panic, writer) => (.panic, writer.output)
  | (.diverge, writer) => (.diverge, writer.output)

end Values

/-! ## Two sinks side by side -/

section Sinks

variable {V W : Type} [EncodeWriter V] [EncodeWriter W]

/-- Two sinks take what a `u64` can count, and stay related by `K`, which knows how many bytes they
have taken. -/
def Takes (K : ℕ → V → W → Prop) : Prop :=
  ∀ written v w bytes, K written v w → written + bytes.length ≤ u64Max →
    ∃ v' w', EncodeWriter.writeAll bytes v = (.ok (), v') ∧
      EncodeWriter.writeAll bytes w = (.ok (), w') ∧ K (written + bytes.length) v' w'

/-- Two encoders that differ in their sinks only. -/
structure SameBut (K : ℕ → V → W → Prop) (s : EncoderTo V) (t : EncoderTo W) : Prop where
  config : s.config = t.config
  written : s.written = t.written
  depth : s.depth = t.depth
  counts : s.counts = t.counts
  wireError : s.wireError = t.wireError
  writers : K s.written s.writer t.writer

namespace SameBut

variable {K : ℕ → V → W → Prop} {α : Type}

omit [EncodeWriter V] [EncodeWriter W] in
lemma fail (e : Error) :
    Matches (SameBut K) (Encoder.fail e : EncTo V α) (Encoder.fail e) :=
  (matches_modify fun _ _ h => { h with wireError := rfl }).bind fun _ => matches_throw _

omit [EncodeWriter V] [EncodeWriter W] in
lemma orFail {m : Act (EncoderTo V) Error α} {n : Act (EncoderTo W) Error α}
    (h : Matches (SameBut K) m n) : Matches (SameBut K) (Encoder.orFail m) (Encoder.orFail n) :=
  h.onErr fail

lemma writeCounted (hK : Takes K) {s : EncoderTo V} {t : EncoderTo W} (h : SameBut K s t)
    {bytes : List UInt8} (hle : s.written + bytes.length ≤ u64Max) :
    (Encoder.writeCounted bytes (s.written + bytes.length) s).1 =
        (Encoder.writeCounted bytes (s.written + bytes.length) t).1 ∧
      SameBut K (Encoder.writeCounted bytes (s.written + bytes.length) s).2
        (Encoder.writeCounted bytes (s.written + bytes.length) t).2 := by
  obtain ⟨v, w, hv, hw, hvw⟩ := hK _ _ _ bytes h.writers hle
  rw [Encoder.writeCounted, Encoder.writeCounted, hv, hw]
  exact ⟨rfl, h.config, rfl, h.depth, h.counts, h.wireError, hvw⟩

lemma emit (hK : Takes K) (bytes : List UInt8) :
    Matches (SameBut K) (Encoder.emit bytes) (Encoder.emit bytes) := by
  intro s t h
  rw [Encoder.emit, Encoder.emit, get_bind_run, get_bind_run, ← h.written, ← h.config, checkedAdd]
  split
  · next hle =>
      by_cases hlimit : ∀ l, s.config.limit = some l → s.written + bytes.length ≤ l
      · rw [Act.okOr_some, Act.okOr_some, pure_bind_run, pure_bind_run, atMost_of_le hlimit,
          atMost_of_le hlimit, pure_bind_run, pure_bind_run]
        exact h.writeCounted hK hle
      · obtain ⟨l, hl, hlt⟩ : ∃ l, s.config.limit = some l ∧ l < s.written + bytes.length := by
          simpa using hlimit
        have hrefuse {U : Type} : (Act.atMost (some l) (s.written + bytes.length) Error.sizeLimit :
            Act U Error Unit) = Act.throw (Error.sizeLimit l) := if_pos hlt
        rw [Act.okOr_some, Act.okOr_some, pure_bind_run, pure_bind_run, hl, hrefuse, hrefuse]
        exact ⟨rfl, h⟩
  · exact ⟨rfl, h⟩

lemma emitTag (hK : Takes K) (tag : UInt8) :
    Matches (SameBut K) (Encoder.emitTag tag) (Encoder.emitTag tag) := orFail (emit hK [tag])

section Numbers

variable [Target]

lemma fixed (hK : Takes K) (little big : List UInt8) :
    Matches (SameBut K) (Encoder.fixed little big) (Encoder.fixed little big) := by
  refine matches_get_bind fun s t h => ?_
  rw [h.config]
  exact orFail (emit hK _)

lemma varint (hK : Takes K) (value : ℕ) :
    Matches (SameBut K) (Encoder.varint value) (Encoder.varint value) := by
  refine matches_get_bind fun s t h => ?_
  rw [h.config]
  have hwide := fun marker width => orFail (emit hK (marker :: beBytes width value))
  exact (orFail (emit hK _)).ite <| (emitTag hK _).ite <| (hwide _ _).ite <| (hwide _ _).ite <|
    (hwide _ _).ite (hwide _ _)

lemma unsigned (hK : Takes K) (value fixedBytes : ℕ) :
    Matches (SameBut K) (Encoder.unsigned value fixedBytes)
      (Encoder.unsigned value fixedBytes) := by
  refine matches_get_bind fun s t h => ?_
  rw [h.config]
  exact (varint hK value).ite (fixed hK _ _)

lemma signed (hK : Takes K) (value : ℤ) (fixedBytes : ℕ) :
    Matches (SameBut K) (Encoder.signed value fixedBytes) (Encoder.signed value fixedBytes) := by
  refine matches_get_bind fun s t h => ?_
  rw [h.config]
  exact (varint hK _).ite (fixed hK _ _)

lemma length (hK : Takes K) (len : ℕ) :
    Matches (SameBut K) (Encoder.length len) (Encoder.length len) :=
  (unsigned hK len 8).ite (fail _)

lemma writeStrValue (hK : Takes K) (text : String) :
    Matches (SameBut K) (Encoder.writeStrValue text) (Encoder.writeStrValue text) :=
  (emitTag hK _).bind fun _ => (length hK _).bind fun _ => orFail (emit hK _)

lemma write (hK : Takes K) (value : Scalar) :
    Matches (SameBut K) (value.write : EncTo V Unit) (value.write : EncTo W Unit) := by
  have htagged : ∀ tag {m : EncTo V Unit} {n : EncTo W Unit}, Matches (SameBut K) m n →
      Matches (SameBut K) (do Encoder.emitTag tag; m) (do Encoder.emitTag tag; n) :=
    fun tag _ _ h => (emitTag hK tag).bind fun _ => h
  cases value with
  | null => exact emitTag hK _
  | bool value => exact emitTag hK _
  | u64 value _ => exact htagged _ (unsigned hK value 8)
  | u128 value _ => exact htagged _ (unsigned hK value 16)
  | i64 value _ _ => exact htagged _ (signed hK value 8)
  | i128 value _ _ => exact htagged _ (signed hK value 16)
  | f64 bits _ => exact (htagged _ (fixed hK _ _)).ite (fail _)
  | f32 bits _ => exact (htagged _ (fixed hK _ _)).ite (fail _)
  | str value => exact writeStrValue hK value
  | char value => exact writeStrValue hK _

end Numbers

lemma enterContainer (hK : Takes K) (tag : UInt8) :
    Matches (SameBut K) (Encoder.enterContainer tag) (Encoder.enterContainer tag) := by
  refine matches_get_bind fun s t h => ?_
  rw [h.config, h.depth]
  refine (fail _).ite ((emitTag hK tag).bind fun _ => matches_modify fun s t h => ?_)
  exact { h with depth := by rw [h.depth] }

omit [EncodeWriter V] [EncodeWriter W] in
lemma countElement :
    Matches (SameBut K) (Encoder.countElement : EncTo V Unit) Encoder.countElement := by
  refine matches_get_bind fun s t h => ?_
  rw [h.depth, h.config, h.counts]
  cases t.depth with
  | zero => exact fail _
  | succ index =>
      dsimp only
      split
      · refine (orFail (matches_okOr _ _)).bind fun count =>
          (orFail (matches_atMost _ _ _)).bind fun _ => matches_modify fun s t h => ?_
        exact { h with counts := by rw [h.counts] }
      · exact matches_panic

lemma exitContainer (hK : Takes K) :
    Matches (SameBut K) (Encoder.exitContainer : EncTo V Unit) Encoder.exitContainer := by
  refine matches_get_bind fun s t h => ?_
  rw [h.depth]
  cases t.depth with
  | zero => exact fail _
  | succ d =>
      dsimp only
      split
      · refine (matches_modify fun s t h => ?_).bind fun _ => emitTag hK _
        exact { h with depth := rfl, counts := by rw [h.counts] }
      · exact matches_panic

variable [Target]

lemma method (hK : Takes K) (event : Event) :
    Matches (SameBut K) (event.method : EncTo V Unit) event.method := by
  cases event with
  | beginArray => exact enterContainer hK _
  | separator => exact countElement
  | endArray => exact exitContainer hK
  | beginObject => exact enterContainer hK _
  | key text => exact countElement.bind fun _ => writeStrValue hK text
  | endObject => exact exitContainer hK
  | write value => exact write hK value

/-- A value takes the two encoders the same way. -/
lemma run (hK : Takes K) (value : Nextencode) :
    Matches (SameBut K) (value.run : EncTo V Unit) value.run := by
  induction value with
  | done outcome => exact matches_call outcome
  | call event next ih =>
      refine Matches.bind (Matches.onErr ?_ fun e => matches_pure (some e)) ih
      rw [map_eq_pure_bind, map_eq_pure_bind]
      exact (method hK event).bind fun _ => matches_pure none

end SameBut

variable [Target] {K : ℕ → V → W → Prop} {v : V} {w : W}

/-- Two entry points end alike, with as many bytes taken as they have counted. -/
lemma toWriter_same (fromNextjson : NextjsonError → Error) (hK : Takes K) (h : K 0 v w)
    (value : Nextencode) (config : Config) :
    (toWriter fromNextjson v value config).1 = (toWriter fromNextjson w value config).1 ∧
      ∀ n, (toWriter fromNextjson v value config).1 = .ok n →
        K n (toWriter fromNextjson v value config).2 (toWriter fromNextjson w value config).2 := by
  obtain ⟨hsame, hleft⟩ := SameBut.run hK value (Encoder.start v config) (Encoder.start w config)
    ⟨rfl, rfl, rfl, rfl, rfl, h⟩
  rw [toWriter, toWriter]
  rcases hv : value.run (Encoder.start v config) with ⟨u | e | _ | _, s⟩ <;>
    rcases hw : value.run (Encoder.start w config) with ⟨u' | e' | _ | _, t⟩ <;>
    rw [hv, hw] at hsame hleft <;>
    simp only [Outcome.err.injEq, reduceCtorEq] at hsame
  · dsimp only at hleft ⊢
    rw [hleft.depth, hleft.written]
    refine ⟨rfl, fun n hn => ?_⟩
    split_ifs at hn
    cases hn
    rw [← hleft.written]
    exact hleft.writers
  · subst hsame
    dsimp only at hleft ⊢
    exact ⟨by rw [hleft.wireError], fun n hn => by cases hn⟩
  · exact ⟨rfl, fun n hn => by cases hn⟩
  · exact ⟨rfl, fun n hn => by cases hn⟩

end Sinks

/-! ## The three sinks -/

lemma takes_count : Takes fun written (v : List UInt8) (w : CountWriter) =>
    v.length = written ∧ w.written = written := by
  rintro written v w bytes ⟨hv, hw⟩ hle
  refine ⟨v ++ bytes, _, rfl, ?_, by rw [List.length_append, hv], rfl⟩
  rw [CountWriter.writeAll_run (Nat.le_trans (Nat.le_add_left _ _) hle), hw, if_pos hle]

lemma takes_slice (output : List UInt8) : Takes fun written (v : List UInt8) (w : SliceWriter) =>
    v.length = written ∧ w = SliceWriter.after output v := by
  rintro written v w bytes ⟨hv, rfl⟩ hle
  refine ⟨v ++ bytes, _, rfl, SliceWriter.writeAll_after (by rwa [hv]), ?_, rfl⟩
  rw [List.length_append, hv]

section EntryPoints

variable [Target] (fromNextjson : NextjsonError → Error) (config : Config) (value : Nextencode)

/-- The counter comes back with the length of the vector. -/
lemma serializedSize_eq : serializedSize fromNextjson config value =
    serialize fromNextjson config value >>= fun bytes => .ok bytes.length := by
  obtain ⟨hsame, hleft⟩ := toWriter_same fromNextjson takes_count (v := [])
    (w := CountWriter.new) ⟨rfl, rfl⟩ value config
  rw [serializedSize, serialize, ← hsame]
  rcases hrun : toWriter fromNextjson ([] : List UInt8) value config with ⟨n | e | _ | _, bytes⟩
  · have hn := (hleft n (by rw [hrun])).1
    rw [hrun] at hn
    rw [← hn]
    rfl
  · rfl
  · rfl
  · rfl

/-- The memory has the vector if there is room, and else what there is room for. -/
lemma serializeIntoSlice_eq (output : List UInt8) :
    (serializeIntoSlice fromNextjson config output value).1 =
        (serialize fromNextjson config value >>= fun bytes =>
          if output.length < bytes.length then .err (.bufferTooSmall bytes.length output.length)
          else .ok bytes.length) ∧
      ∀ bytes, serialize fromNextjson config value = .ok bytes →
        (serializeIntoSlice fromNextjson config output value).2 =
          bytes.take output.length ++ output.drop bytes.length := by
  obtain ⟨hsame, hleft⟩ := toWriter_same fromNextjson (takes_slice output) (v := [])
    (w := SliceWriter.new output) ⟨rfl, SliceWriter.new_eq_after output⟩ value config
  rw [serializeIntoSlice, serialize]
  rcases hrun : toWriter fromNextjson ([] : List UInt8) value config with ⟨n | e | _ | _, bytes⟩ <;>
    rcases hslice : toWriter fromNextjson (SliceWriter.new output) value config with
      ⟨n' | e' | _ | _, writer⟩ <;>
    rw [hrun, hslice] at hsame hleft <;>
    simp only [Outcome.ok.injEq, Outcome.err.injEq, reduceCtorEq] at hsame
  · obtain ⟨-, rfl⟩ := hleft n rfl
    have hlength := SliceWriter.length_after output bytes
    refine ⟨?_, fun bytes' hbytes => ?_⟩
    · dsimp only [Outcome.ok_bind]
      rw [SliceWriter.finish, hlength]
      rfl
    · cases hbytes
      rfl
  · subst hsame
    exact ⟨rfl, fun _ hbytes => by cases hbytes⟩
  · exact ⟨rfl, fun _ hbytes => by cases hbytes⟩
  · exact ⟨rfl, fun _ hbytes => by cases hbytes⟩

/-- The three entry points agree on a value: on the count of its bytes, on the bytes, on the room
that they need, and on the error. -/
structure SinksAgree : Prop where
  size_iff : ∀ n, serializedSize fromNextjson config value = .ok n ↔
    ∃ bytes, serialize fromNextjson config value = .ok bytes ∧ bytes.length = n
  slice_iff : ∀ bytes output, bytes.length ≤ output.length →
    (serialize fromNextjson config value = .ok bytes ↔
      serializeIntoSlice fromNextjson config output value =
        (.ok bytes.length, bytes ++ output.drop bytes.length))
  small : ∀ bytes output, serialize fromNextjson config value = .ok bytes →
    output.length < bytes.length →
      (serializeIntoSlice fromNextjson config output value).1 =
        .err (.bufferTooSmall bytes.length output.length)
  error_iff : ∀ e, serialize fromNextjson config value = .err e ↔
    serializedSize fromNextjson config value = .err e
  error : ∀ e output, serialize fromNextjson config value = .err e →
    (serializeIntoSlice fromNextjson config output value).1 = .err e

/-- The three sinks agree on every value, whatever it does. -/
theorem serialize_sinks_agree : SinksAgree fromNextjson config value := by
  have hsize := serializedSize_eq fromNextjson config value
  have hslice := serializeIntoSlice_eq fromNextjson config value
  refine ⟨fun n => ?_, fun bytes output hroom => ?_, fun bytes output hbytes hroom => ?_,
    fun e => ?_, fun e output he => ?_⟩
  · rw [hsize, Outcome.bind_eq_ok]
    simp only [Outcome.ok.injEq]
  · obtain ⟨hfst, hsnd⟩ := hslice output
    constructor
    · intro hbytes
      rw [hbytes, Outcome.ok_bind, if_neg (Nat.not_lt.mpr hroom)] at hfst
      exact Prod.ext hfst (by rw [hsnd bytes hbytes, List.take_of_length_le hroom])
    · intro heq
      rw [heq] at hfst hsnd
      obtain ⟨bytes', hbytes', hlen⟩ := Outcome.bind_eq_ok.mp hfst.symm
      have hmemory := hsnd bytes' hbytes'
      split_ifs at hlen with hlt
      have hlength : bytes'.length = bytes.length := by simpa using hlen
      rw [List.take_of_length_le (Nat.not_lt.mp hlt), hlength] at hmemory
      rw [hbytes', (List.append_inj hmemory hlength.symm).1]
  · rw [(hslice output).1, hbytes, Outcome.ok_bind, if_pos hroom]
  · rw [hsize]
    rcases serialize fromNextjson config value with bytes | e' | _ | _ <;> simp
  · rw [(hslice output).1, he]
    rfl

end EntryPoints

end RustBinary.Native
