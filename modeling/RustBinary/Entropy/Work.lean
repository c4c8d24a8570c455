import RustBinary.Entropy.Acceptance
import RustBinary.Lib.Act

/-!
# What decompression costs

`decompress` once more, with a record of the room it asks for and of the rounds of its loops.
The record changes nothing about the outcome (`traces_decompressTraced`).
-/

namespace RustBinary.Entropy

open Lib Lib.Outcome

/-- The symbols that room was asked for, and the rounds of the two loops. -/
@[ext]
structure Work where
  reserved : ℕ
  decoded : ℕ
  replayed : ℕ
deriving DecidableEq, Repr

abbrev Worked (α : Type) : Type := Act Work Error α

/-- The loop of `put_symbol` over the output, with its rounds. -/
def putSymbolsTraced : List (Model × ℕ) → RansEncoder → Worked RansEncoder
  | [], e => pure e
  | (model, symbol) :: rest, e => do
      Act.modify fun w => { w with replayed := w.replayed + 1 }
      let e ← Act.call (e.putSymbol model symbol)
      putSymbolsTraced rest e

namespace EntropyConfig

/-- The loop of `decompress`, with its rounds. -/
def getBytesTraced (model : Model) : ℕ → RansDecoder → Worked (List UInt8 × RansDecoder)
  | 0, d => pure ([], d)
  | n + 1, d => do
      Act.modify fun w => { w with decoded := w.decoded + 1 }
      let (symbol, d) ← Act.call (d.getSymbol model)
      if 255 < symbol then
        Act.throw (.entropy "byte-alphabet rANS produced an out-of-range symbol")
      else
        let (output, d) ← getBytesTraced model n d
        pure (UInt8.ofNat symbol :: output, d)

/-- Room for `count` symbols is asked for; more than the address space aborts. -/
def reserve (count : ℕ) : Worked Unit := do
  Act.modify fun w => { w with reserved := w.reserved + count }
  Act.call (withCapacity 1 count)

/-- The replay of `decompress`. -/
def replayTraced (c : EntropyConfig) (model : Model) (output : List UInt8) (finalState : ℕ)
    (payload : List UInt8) : Worked Unit :=
  if c.replayVerification then do
    let e ← putSymbolsTraced (output.map fun byte => (model, byte.toNat)) .new
    Act.call (checkReplay e.state e.bytes finalState payload)
  else pure ()

/-- The coded branch of `decompress`. -/
def decodeTraced (c : EntropyConfig) (model : Model) (count finalState : ℕ) (payload : List UInt8) :
    Worked (List UInt8) := do
  reserve count
  let (output, d) ← getBytesTraced model count (.new finalState payload)
  Act.call d.finish
  replayTraced c model output.reverse finalState payload
  pure output.reverse

/-- The raw branch of `decompress`: the payload is copied. -/
def copyTraced (count : ℕ) (payload : List UInt8) : Worked (List UInt8) := do
  Act.call (require (payload.length = count) (.entropy "raw entropy frame length mismatch"))
  Act.modify fun w => { w with reserved := w.reserved + payload.length }
  pure payload

/-- `decompress`, with its work. -/
def decompressTraced (c : EntropyConfig) (input : Input) (model : Model) :
    Worked (List UInt8) := do
  let (count, finalState, raw, payload) ← Act.call (c.unwrap input.bytes)
  if raw then copyTraced count payload else decodeTraced c model count finalState payload

/-- The work of a call of `decompress`. -/
def work (c : EntropyConfig) (input : Input) (model : Model) : Work :=
  (decompressTraced c input model ⟨0, 0, 0⟩).2

/-! ## The record changes nothing -/

/-- From every state, `m` comes back with `o`. -/
def Traces {α : Type} (m : Worked α) (o : Outcome Error α) : Prop := ∀ w, (m w).1 = o

lemma traces_call {α : Type} (o : Outcome Error α) : Traces (Act.call o) o := fun _ => rfl

lemma Traces.bind {α β : Type} {m : Worked α} {o : Outcome Error α} {f : α → Worked β}
    {g : α → Outcome Error β} (hm : Traces m o) (hf : ∀ a, Traces (f a) (g a)) :
    Traces (m >>= f) (o >>= g) := by
  intro w
  have h := hm w
  rw [Act.bind_run]
  rcases hrun : m w with ⟨a | e | _ | _, w'⟩ <;> rw [hrun] at h <;> subst h
  · exact hf a w'
  · rfl
  · rfl
  · rfl

lemma Traces.modify_bind {α : Type} {f : Unit → Worked α} {o : Outcome Error α} {g : Work → Work}
    (hf : Traces (f ()) o) : Traces (Act.modify g >>= f) o := fun w => hf (g w)

lemma traces_putSymbolsTraced (pairs : List (Model × ℕ)) (e : RansEncoder) :
    Traces (putSymbolsTraced pairs e) (putSymbols pairs e) := by
  induction pairs generalizing e with
  | nil => exact fun _ => rfl
  | cons pair rest ih =>
      obtain ⟨model, symbol⟩ := pair
      exact .modify_bind ((traces_call _).bind fun e => ih e)

lemma traces_getBytesTraced (model : Model) (n : ℕ) (d : RansDecoder) :
    Traces (getBytesTraced model n d) (getBytes model n d) := by
  induction n generalizing d with
  | zero => exact fun _ => rfl
  | succ n ih =>
      refine .modify_bind ((traces_call _).bind fun result => ?_)
      obtain ⟨symbol, d⟩ := result
      dsimp only
      split
      · exact fun _ => rfl
      · exact (ih d).bind fun _ => fun _ => rfl

lemma traces_decompressTraced (c : EntropyConfig) (input : Input) (model : Model) :
    Traces (decompressTraced c input model) (c.decompress input model) := by
  refine (traces_call _).bind fun header => ?_
  obtain ⟨count, finalState, raw, payload⟩ := header
  cases raw with
  | true => exact (traces_call _).bind fun _ => fun _ => rfl
  | false =>
      refine (Traces.modify_bind (traces_call _)).bind fun _ => ?_
      refine (traces_getBytesTraced model count _).bind fun result => ?_
      obtain ⟨output, d⟩ := result
      refine (traces_call _).bind fun _ => ?_
      dsimp only
      rw [replayTraced]
      split
      · rw [bind_assoc]
        exact (traces_putSymbolsTraced _ _).bind fun e => (traces_call _).bind fun _ => fun _ => rfl
      · exact fun _ => rfl

/-! ## Bounds -/

/-- Whatever it comes back with, `m` adds at most `bound` to the work done before. -/
def AtMost {α : Type} (m : Worked α) (bound : Work) : Prop :=
  ∀ w, (m w).2.reserved ≤ w.reserved + bound.reserved ∧
    (m w).2.decoded ≤ w.decoded + bound.decoded ∧
    (m w).2.replayed ≤ w.replayed + bound.replayed

lemma atMost_call {α : Type} (o : Outcome Error α) (bound : Work) : AtMost (Act.call o) bound :=
  fun _ => ⟨Nat.le_add_right _ _, Nat.le_add_right _ _, Nat.le_add_right _ _⟩

lemma AtMost.bind {α β : Type} {m : Worked α} {f : α → Worked β} {b c bound : Work}
    (hm : AtMost m b) (hf : ∀ a w w', m w = (.ok a, w') → AtMost (f a) c)
    (hbound : b.reserved + c.reserved ≤ bound.reserved ∧
      b.decoded + c.decoded ≤ bound.decoded ∧ b.replayed + c.replayed ≤ bound.replayed) :
    AtMost (m >>= f) bound := by
  intro w
  have h₁ := hm w
  rw [Act.bind_run]
  rcases hrun : m w with ⟨a | e | _ | _, w'⟩ <;> rw [hrun] at h₁
  · have h₂ := hf a w w' hrun w'
    dsimp only at h₁ ⊢
    omega
  all_goals
    dsimp only at h₁ ⊢
    omega

lemma atMost_putSymbolsTraced (pairs : List (Model × ℕ)) (e : RansEncoder) :
    AtMost (putSymbolsTraced pairs e) ⟨0, 0, pairs.length⟩ := by
  induction pairs generalizing e with
  | nil => exact atMost_call (.ok e) _
  | cons pair rest ih =>
      obtain ⟨model, symbol⟩ := pair
      refine AtMost.bind (b := ⟨0, 0, 1⟩) (c := ⟨0, 0, rest.length⟩) ?_ (fun _ _ _ _ => ?_) ?_
      · exact fun w => ⟨Nat.le_refl _, Nat.le_refl _, Nat.le_refl _⟩
      · refine (atMost_call (e.putSymbol model symbol) ⟨0, 0, 0⟩).bind (fun e' _ _ _ => ih e') ?_
        simp
      · simp [Nat.add_comm]

lemma atMost_getBytesTraced (model : Model) (n : ℕ) (d : RansDecoder) :
    AtMost (getBytesTraced model n d) ⟨0, n, 0⟩ := by
  induction n generalizing d with
  | zero => exact atMost_call (.ok ([], d)) _
  | succ n ih =>
      refine AtMost.bind (b := ⟨0, 1, 0⟩) (c := ⟨0, n, 0⟩) ?_ (fun _ _ _ _ => ?_) ?_
      · exact fun w => ⟨Nat.le_refl _, Nat.le_refl _, Nat.le_refl _⟩
      · refine (atMost_call (d.getSymbol model) ⟨0, 0, 0⟩).bind (c := ⟨0, n, 0⟩)
          (fun result _ _ _ => ?_) (by simp)
        obtain ⟨symbol, d'⟩ := result
        dsimp only
        split
        · exact atMost_call (.err _) _
        · refine (ih d').bind (c := ⟨0, 0, 0⟩) (fun result _ _ _ => ?_) (by simp)
          exact atMost_call (.ok _) _
      · simp [Nat.add_comm]

lemma atMost_decodeTraced (c : EntropyConfig) (model : Model) (count finalState : ℕ)
    (payload : List UInt8) :
    AtMost (c.decodeTraced model count finalState payload) ⟨count, count, count⟩ := by
  refine AtMost.bind (b := ⟨count, 0, 0⟩) (c := ⟨0, count, count⟩) ?_ (fun _ _ _ _ => ?_) (by simp)
  · refine AtMost.bind (b := ⟨count, 0, 0⟩) (c := ⟨0, 0, 0⟩) ?_ (fun _ _ _ _ => ?_) (by simp)
    · exact fun w => ⟨Nat.le_refl _, Nat.le_refl _, Nat.le_refl _⟩
    · exact atMost_call _ _
  · refine (atMost_getBytesTraced model count _).bind (c := ⟨0, 0, count⟩) (fun result w w' h => ?_)
      (by simp)
    obtain ⟨output, d⟩ := result
    have hlen : output.length = count := by
      have htraces := traces_getBytesTraced model count (.new finalState payload) w
      rw [h] at htraces
      exact getBytes_length htraces.symm
    dsimp only
    refine (atMost_call d.finish ⟨0, 0, 0⟩).bind (c := ⟨0, 0, count⟩) (fun _ _ _ _ => ?_) (by simp)
    refine AtMost.bind (b := ⟨0, 0, count⟩) (c := ⟨0, 0, 0⟩) ?_ (fun _ _ _ _ => ?_) (by simp)
    · rw [replayTraced]
      split
      · refine (atMost_putSymbolsTraced _ _).bind (c := ⟨0, 0, 0⟩) (fun e _ _ _ => ?_) ?_
        · exact atMost_call _ _
        · simp [hlen]
      · exact atMost_call (.ok ()) _
    · exact atMost_call (.ok _) _

/-- The room asked for is not given back. -/
def Reserving (w w' : Work) : Prop := w.reserved ≤ w'.reserved

lemma closed_reserving : Act.Closed (ε := Error) fun _ m => Act.Moves Reserving m :=
  Act.closed_moves (fun _ => Nat.le_refl _) fun _ _ _ => Nat.le_trans

lemma reserving_call {α : Type} (o : Outcome Error α) : Act.Moves Reserving (Act.call o) :=
  fun _ => Nat.le_refl _

lemma reserving_putSymbolsTraced (pairs : List (Model × ℕ)) (e : RansEncoder) :
    Act.Moves Reserving (putSymbolsTraced pairs e) := by
  induction pairs generalizing e with
  | nil => exact closed_reserving.pure e
  | cons pair rest ih =>
      refine closed_reserving.bind (fun w => Nat.le_refl _) fun _ => ?_
      exact closed_reserving.bind (reserving_call _) ih

lemma reserving_getBytesTraced (model : Model) (n : ℕ) (d : RansDecoder) :
    Act.Moves Reserving (getBytesTraced model n d) := by
  induction n generalizing d with
  | zero => exact closed_reserving.pure ([], d)
  | succ n ih =>
      refine closed_reserving.bind (fun w => Nat.le_refl _) fun _ => ?_
      refine closed_reserving.bind (reserving_call _) fun result => ?_
      exact closed_reserving.ite (closed_reserving.throw _)
        (closed_reserving.bind (ih result.2) fun _ => closed_reserving.pure _)

/-- A coded frame has room asked for all the symbols it declares. -/
lemma le_reserved_decodeTraced (c : EntropyConfig) (model : Model) (count finalState : ℕ)
    (payload : List UInt8) (w : Work) :
    w.reserved + count ≤ (c.decodeTraced model count finalState payload w).2.reserved := by
  have hrest : ∀ result : List UInt8 × RansDecoder, Act.Moves Reserving (do
      Act.call result.2.finish
      c.replayTraced model result.1.reverse finalState payload
      pure result.1.reverse : Worked (List UInt8)) := by
    intro result
    refine closed_reserving.bind (reserving_call _) fun _ => ?_
    refine closed_reserving.bind ?_ fun _ => closed_reserving.pure _
    rw [replayTraced]
    refine closed_reserving.ite ?_ (closed_reserving.pure ())
    exact closed_reserving.bind (reserving_putSymbolsTraced _ _) fun e => reserving_call _
  have hloop := closed_reserving.bind (reserving_getBytesTraced model count (.new finalState payload))
    hrest
  have hreserve : (reserve count w).2 = { w with reserved := w.reserved + count } := rfl
  rw [decodeTraced, Act.bind_run]
  rcases hrun : reserve count w with ⟨_ | _ | _ | _, w'⟩ <;> rw [hrun] at hreserve <;>
    dsimp only at hreserve ⊢ <;> subst hreserve
  · exact hloop { w with reserved := w.reserved + count }
  all_goals exact Nat.le_refl _

/-! ## The limit -/

/-- A frame within the limit is either flagged as raw or declares at most as many symbols as the
limit has bytes. -/
def CountWithin (limit : ℕ) (input : Input) : Prop :=
  ∀ finalState count payload, count ≤ u64Max → finalState ≤ u64Max →
    input.bytes = frame finalState count payload false → input.bytes.length ≤ limit → count ≤ limit

lemma decompress_raw {c : EntropyConfig} {input : Input} {model : Model}
    {output payload : List UInt8} {count finalState : ℕ}
    (hunwrap : c.unwrap input.bytes = ok (count, finalState, true, payload))
    (h : c.decompress input model = ok output) : output = payload := by
  rw [decompress, hunwrap, ok_bind] at h
  obtain ⟨⟨⟩, -, h⟩ := bind_eq_ok.mp h
  exact (Outcome.ok.inj h).symm

lemma decompress_length {c : EntropyConfig} {input : Input} {model : Model}
    {output payload : List UInt8} {count finalState : ℕ}
    (hunwrap : c.unwrap input.bytes = ok (count, finalState, false, payload))
    (h : c.decompress input model = ok output) : output.length = count := by
  rw [decompress, hunwrap, ok_bind] at h
  obtain ⟨⟨⟩, -, h⟩ := bind_eq_ok.mp h
  obtain ⟨⟨output', d⟩, hloop, h⟩ := bind_eq_ok.mp h
  obtain ⟨⟨⟩, -, h⟩ := bind_eq_ok.mp h
  have hout : output = output'.reverse := by
    dsimp only at h
    split at h
    · obtain ⟨e, -, h⟩ := bind_eq_ok.mp h
      obtain ⟨⟨⟩, -, h⟩ := bind_eq_ok.mp h
      exact (Outcome.ok.inj h).symm
    · exact (Outcome.ok.inj h).symm
  rw [hout, List.length_reverse]
  exact getBytes_length hloop

/-- The count of a coded frame is not compared with the limit: the output, the room asked for and
the rounds of the loops stay within the limit exactly when the count does. -/
theorem decompress_within_iff (c : EntropyConfig) (limit : ℕ) (hlimit : c.base.limit = some limit)
    (input : Input) (model : Model) :
    ((∀ output, c.decompress input model = ok output → output.length ≤ limit) ∧
      (c.work input model).reserved ≤ limit ∧ (c.work input model).decoded ≤ limit ∧
      (c.work input model).replayed ≤ limit) ↔ CountWithin limit input := by
  have hlen (length : ℕ) : c.base.enforceByteLimit length = ok () ↔ length ≤ limit := by
    rw [Config.enforceByteLimit_eq_ok, hlimit]
    simp
  have hcoded : ∀ finalState count payload, count ≤ u64Max → finalState ≤ u64Max →
      input.bytes = frame finalState count payload false → input.bytes.length ≤ limit →
      c.unwrap input.bytes = ok (count, finalState, false, payload) := by
    intro finalState count payload hcount hstate hframe hle
    exact unwrap_eq_ok.mpr ⟨hframe, hcount, hstate, nofun, (hlen _).mpr hle⟩
  rcases hunwrap : c.unwrap input.bytes with ⟨count, finalState, raw, payload⟩ | e | _ | _
  · obtain ⟨hframe, hcount, hstate, -, hfits⟩ := unwrap_eq_ok.mp hunwrap
    rw [hlen] at hfits
    cases raw with
    | true =>
        have hwork : c.work input model = (copyTraced count payload ⟨0, 0, 0⟩).2 := by
          rw [work, decompressTraced, Act.bind_run, Act.call_run, hunwrap]
          rfl
        have hpayload : payload.length ≤ limit := by
          rw [hframe, frame_length] at hfits
          omega
        have hcopied : (copyTraced count payload ⟨0, 0, 0⟩).2.reserved ≤ payload.length ∧
            (copyTraced count payload ⟨0, 0, 0⟩).2.decoded = 0 ∧
            (copyTraced count payload ⟨0, 0, 0⟩).2.replayed = 0 := by
          rw [copyTraced, require]
          split
          · exact ⟨(Nat.zero_add _).le, rfl, rfl⟩
          · exact ⟨Nat.zero_le _, rfl, rfl⟩
        refine iff_of_true ⟨fun output h => ?_, ?_⟩ ?_
        · rw [decompress_raw hunwrap h]
          exact hpayload
        · rw [hwork]
          omega
        · intro finalState' count' payload' hcount' hstate' hframe' hle
          have heq := hcoded _ _ _ hcount' hstate' hframe' hle
          rw [hunwrap] at heq
          cases heq
    | false =>
        have hwork : c.work input model
            = (c.decodeTraced model count finalState payload ⟨0, 0, 0⟩).2 := by
          rw [work, decompressTraced, Act.bind_run, Act.call_run, hunwrap]
          rfl
        constructor
        · rintro ⟨-, hreserved, -⟩ finalState' count' payload' hcount' hstate' hframe' hle
          have heq := hcoded _ _ _ hcount' hstate' hframe' hle
          rw [hunwrap] at heq
          cases heq
          have hroom := le_reserved_decodeTraced c model count finalState payload ⟨0, 0, 0⟩
          rw [hwork] at hreserved
          omega
        · intro hwithin
          have hle := hwithin _ _ _ hcount hstate hframe hfits
          have hbound := atMost_decodeTraced c model count finalState payload ⟨0, 0, 0⟩
          simp only [Nat.zero_add] at hbound
          rw [hwork]
          refine ⟨fun output h => ?_, by omega⟩
          rw [decompress_length hunwrap h]
          exact hle
  -- a frame that is refused costs nothing
  all_goals
    have hwork : c.work input model = ⟨0, 0, 0⟩ := by
      rw [work, decompressTraced, Act.bind_run, Act.call_run, hunwrap]
    refine iff_of_true ⟨fun output h => ?_, ?_⟩ ?_
    · rw [decompress, hunwrap] at h
      cases h
    · rw [hwork]
      exact ⟨Nat.zero_le _, Nat.zero_le _, Nat.zero_le _⟩
    · intro finalState count payload hcount hstate hframe hle
      rw [hcoded _ _ _ hcount hstate hframe hle] at hunwrap
      cases hunwrap

/-- One symbol that takes up the whole mass. -/
def onlyZero : Model where
  freqs := [ransM]
  pos := by decide
  sum_eq := rfl

/-- A profile with a limit of 24 bytes. -/
def tight : EntropyConfig := new (Config.standard.withLimit 24)

/-- A frame without a payload that declares 25 symbols. -/
def boast : Input where
  bytes := frame ransL 25 [] false
  length_le := by decide

theorem decompress_within_iff_boast :
    ((∀ output, tight.decompress boast onlyZero = ok output → output.length ≤ 24) ∧
      (tight.work boast onlyZero).reserved ≤ 24 ∧ (tight.work boast onlyZero).decoded ≤ 24 ∧
      (tight.work boast onlyZero).replayed ≤ 24) ↔ CountWithin 24 boast :=
  decompress_within_iff tight 24 rfl boast onlyZero

/-- The frame has the length of the limit, and its output one byte more. -/
theorem decompress_boast :
    tight.decompress boast onlyZero = ok (List.replicate 25 0) ∧
      24 < (tight.work boast onlyZero).reserved ∧ 24 < (tight.work boast onlyZero).decoded := by
  decide +kernel

end EntropyConfig

end RustBinary.Entropy
