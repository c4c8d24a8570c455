import RustBinary.Encryption.Frame
import RustBinary.Lib.Framing
import RustBinary.Native.Agreement
import RustBinary.Native.Decoder

/-!
# Sessions

A session sends values as frames, each one behind its length, and receives what another session has
sent: it reads a frame off the stream, lets a verifier look at it and deserializes it.  A frame that
the verifier or the codec refuses has been read; one that is too long has not.
-/

namespace RustBinary.Trust

open Lib Lib.Act

/-- The errors of the codecs and of verification. -/
inductive Error where
  | codec (error : Encryption.Error)
  | trust (message : String)
deriving DecidableEq, Repr

def wireError (error : RustBinary.Error) : Error := .codec (Encryption.wireError error)

/-- `Codec`, for the values of the types `T`. -/
structure Codec (T V : Type) where
  typeOf : V → T
  serializeFrame : V → Outcome Error (Slice 1 UInt8)
  deserializeFrame : T → List UInt8 → Outcome Error V

/-- `Verifier`. -/
structure Verifier where
  check : List UInt8 → Outcome Error Unit

inductive SessionState where
  | handshake
  | authenticated
  | closed
deriving DecidableEq, Repr

/-- `Session`, without its reader. -/
structure Session (T V : Type) (S : SessionState) where
  codec : Codec T V
  maxFrameLen : Option ℕ
  verifier : Option Verifier

namespace Session

variable {T V : Type}

def new (codec : Codec T V) : Session T V .handshake where
  codec := codec
  maxFrameLen := some defaultSizeLimit
  verifier := none

def withMaxFrameLen (session : Session T V .handshake) (limit : Option ℕ) :
    Session T V .handshake :=
  { session with maxFrameLen := limit }

def authenticate (session : Session T V .handshake) (verifier : Verifier) :
    Session T V .authenticated where
  codec := session.codec
  maxFrameLen := session.maxFrameLen
  verifier := some verifier

def close (session : Session T V .authenticated) : Session T V .closed where
  codec := session.codec
  maxFrameLen := session.maxFrameLen
  verifier := none

/-- `read_exact`, of a reader that holds a stream. -/
def readExact (count : ℕ) : Act (List UInt8) Error (List UInt8) := fun stream =>
  if count ≤ stream.length then (.ok (stream.take count), stream.drop count)
  else (.err (.codec (.payload .unexpectedEof)), [])

/-- The last part of `recv_verified`: the frame behind its length. -/
def recvPayload (session : Session T V .authenticated) (type : T) (length : ℕ) :
    Act (List UInt8) Error V := do
  -- `vec![0_u8; length]`
  call ((withCapacity 1 length).mapErr wireError)
  let frame ← readExact length
  let verifier ← okOr session.verifier (.trust "authenticated session lost its verifier")
  call (verifier.check frame)
  call (session.codec.deserializeFrame type frame)

/-- `recv_verified`, of a value of the type `type`; `Verified` only marks the value. -/
def recvVerified (session : Session T V .authenticated) (type : T) : Act (List UInt8) Error V := do
  let lengthBytes ← readExact 8
  let length := leNat lengthBytes
  call (Outcome.require (length ≤ u64Max) (.trust "session frame length does not fit usize"))
  atMost session.maxFrameLen length fun limit => wireError (.sizeLimit limit)
  session.recvPayload type length

/-- `recv`, which takes the mark off. -/
def recv (session : Session T V .authenticated) (type : T) : Act (List UInt8) Error V :=
  session.recvVerified type

/-- `send`, to a vector. -/
def send (session : Session T V .authenticated) (value : V) : Act (List UInt8) Error Unit := do
  let payload ← call (session.codec.serializeFrame value)
  call (Outcome.require (payload.elems.length ≤ u64Max) (.trust "session frame too large"))
  modify fun output => output ++ leBytes 8 payload.elems.length
  modify fun output => output ++ payload.elems

end Session

/-! ## What is on the stream -/

/-- A payload behind its length. -/
def frame (payload : Slice 1 UInt8) : List UInt8 :=
  leBytes 8 payload.elems.length ++ payload.elems

/-- The payloads of the values that are sent; a value that is not serialized is not sent. -/
def Codec.payloads {T V : Type} (codec : Codec T V) (values : List V) : List (Slice 1 UInt8) :=
  values.filterMap fun value => (codec.serializeFrame value).ok?

lemma payload_le (payload : Slice 1 UInt8) : payload.elems.length ≤ u64Max := by
  have hle := payload.length_le
  have : isizeMax ≤ u64Max := by decide
  omega

namespace Session

variable {T V : Type} {session : Session T V .authenticated}

/-- A call of `send`, as a step of the output. -/
def sendStep (session : Session T V .authenticated) (value : V) (output : List UInt8) :
    Outcome Error Unit × List UInt8 :=
  session.send value output

/-- A call of `recv`, as a step of the stream. -/
def recvStep (session : Session T V .authenticated) (type : T) (stream : List UInt8) :
    Outcome Error V × List UInt8 :=
  session.recv type stream

/-- A call of `send` writes the frame, or nothing. -/
lemma sendStep_snd (value : V) (output : List UInt8) :
    (session.sendStep value output).2 =
      output ++ (session.codec.payloads [value]).flatMap frame := by
  rw [sendStep, send, bind_run, call_run, Codec.payloads, List.filterMap_cons, List.filterMap_nil]
  cases session.codec.serializeFrame value with
  | ok payload =>
      dsimp only [Outcome.ok?]
      rw [Outcome.require_of (payload_le payload)]
      simp [bind_run, frame]
  | err e => exact (List.append_nil output).symm
  | panic => exact (List.append_nil output).symm
  | diverge => exact (List.append_nil output).symm

lemma payloads_cons (codec : Codec T V) (value : V) (values : List V) :
    codec.payloads (value :: values) = codec.payloads [value] ++ codec.payloads values := by
  rw [Codec.payloads, ← List.singleton_append, List.filterMap_append]
  rfl

/-- What a sender writes is one frame behind the other. -/
lemma run_sendStep (values : List V) (output : List UInt8) :
    (run session.sendStep values output).2 =
      output ++ (session.codec.payloads values).flatMap frame := by
  induction values generalizing output with
  | nil => exact (List.append_nil output).symm
  | cons value values ih =>
      rw [run_cons, ih, sendStep_snd, payloads_cons _ value values, List.flatMap_append,
        List.append_assoc]

/-! ## Receiving a frame -/

/-- A payload that is within the bound of the session. -/
def Fits (session : Session T V .authenticated) (payload : Slice 1 UInt8) : Prop :=
  ∀ limit, session.maxFrameLen = some limit → payload.elems.length ≤ limit

/-- What is made of a payload that has been read. -/
def accept (session : Session T V .authenticated) (type : T) (payload : List UInt8) :
    Outcome Error V := do
  let verifier ← Outcome.okOr session.verifier (.trust "authenticated session lost its verifier")
  verifier.check payload
  session.codec.deserializeFrame type payload

lemma readExact_append {count : ℕ} {bytes : List UInt8} (h : bytes.length = count)
    (rest : List UInt8) : readExact count (bytes ++ rest) = (.ok bytes, rest) := by
  rw [readExact, if_pos (by rw [List.length_append]; omega), List.take_left' h, List.drop_left' h]

/-- The length in front of a payload is read and compared with the bound. -/
lemma recv_frame (type : T) (payload : Slice 1 UInt8) (rest : List UInt8) :
    session.recv type (frame payload ++ rest) =
      (atMost session.maxFrameLen payload.elems.length (fun limit => wireError (.sizeLimit limit))
        >>= fun _ => session.recvPayload type payload.elems.length) (payload.elems ++ rest) := by
  have hlength : leNat (leBytes 8 payload.elems.length) = payload.elems.length := by
    refine leNat_leBytes ?_
    have := payload_le payload
    rw [u64Max] at this
    omega
  have hfits : Outcome.require (payload.elems.length ≤ u64Max)
      (.trust "session frame length does not fit usize") = (.ok () : Outcome Error Unit) :=
    Outcome.require_of (payload_le payload)
  rw [recv, recvVerified, frame, List.append_assoc,
    bind_of_ok (readExact_append (length_leBytes 8 _) (payload.elems ++ rest)), hlength, hfits]
  rfl

/-- A frame within the bound is read whole, whatever comes of it. -/
lemma recv_of_fits {payload : Slice 1 UInt8} (h : session.Fits payload) (type : T)
    (rest : List UInt8) :
    session.recv type (frame payload ++ rest) = (session.accept type payload.elems, rest) := by
  have hcapacity : (withCapacity 1 payload.elems.length).mapErr wireError = .ok () := by
    rw [withCapacity_of_le payload.length_le]
    rfl
  rw [recv_frame, atMost_of_le h, pure_bind_run, recvPayload, hcapacity,
    bind_of_ok (call_run _ _), bind_of_ok (readExact_append rfl rest), accept]
  cases session.verifier with
  | none => rfl
  | some verifier =>
      rw [okOr_some, pure_bind_run, bind_run, call_run, Outcome.okOr_some, Outcome.ok_bind]
      cases verifier.check payload.elems <;> rfl

/-- Of a frame beyond the bound only the length is read. -/
lemma recv_of_not_fits {payload : Slice 1 UInt8} (h : ¬ session.Fits payload) (type : T)
    (rest : List UInt8) :
    (session.recv type (frame payload ++ rest)).2 = payload.elems ++ rest ∧
      payload.elems ≠ [] := by
  rw [recv_frame]
  rcases atMost_cases session.maxFrameLen payload.elems.length fun limit =>
    wireError (.sizeLimit limit) with ⟨hle, -⟩ | ⟨limit, -, hlt, hthrow⟩
  · exact absurd hle h
  · rw [hthrow, throw_bind_run]
    refine ⟨rfl, fun hnil => ?_⟩
    rw [hnil] at hlt
    exact Nat.not_lt_zero _ hlt

lemma recvStep_of_fits {payload : Slice 1 UInt8} (h : session.Fits payload) (type : T)
    (rest : List UInt8) :
    session.recvStep type (frame payload ++ rest) =
      ((session.recvStep type (frame payload)).1, rest) := by
  have halone := recv_of_fits h type []
  rw [List.append_nil] at halone
  rw [recvStep, recvStep, recv_of_fits h, halone]

/-- The calls of `recv` stay in sync exactly with frames within the bound. -/
lemma inSync_iff (type : T) (payloads : List (Slice 1 UInt8)) (rest : List UInt8) :
    InSync session.recvStep frame payloads rest ↔
      ∀ payload ∈ payloads, session.Fits payload := by
  induction payloads with
  | nil => exact iff_of_true (inSync_nil rest) (by simp)
  | cons payload payloads ih =>
      rw [inSync_cons, ih, List.forall_mem_cons]
      refine and_congr_left fun _ => ⟨fun h => ?_, fun h type => recvStep_of_fits h type _⟩
      by_contra hfits
      obtain ⟨hleft, hne⟩ := recv_of_not_fits hfits type (payloads.flatMap frame ++ rest)
      -- the body of the frame is still there
      have hbody := hleft.symm.trans (congrArg Prod.snd (h type))
      exact hne (List.append_left_eq_self.mp hbody)

/-! ## Sessions in sync -/

/-- The frames that `sender` has written for `values`, with `rest` behind them: however many calls
of `recv` are made for them, each one is answered as if its frame was alone, whether it succeeds or
not, and the stream then begins with the next frame. -/
def StaysInSync (sender receiver : Session T V .authenticated) (values : List V)
    (rest : List UInt8) : Prop :=
  ∀ types : List T, types.length ≤ (sender.codec.payloads values).length →
    run receiver.recvStep types ((run sender.sendStep values []).2 ++ rest) =
      (List.zipWith (fun type payload => (receiver.recvStep type (frame payload)).1) types
          (sender.codec.payloads values),
        ((sender.codec.payloads values).drop types.length).flatMap frame ++ rest)

/-- A session stays in sync exactly when no frame is longer than its bound. -/
theorem staysInSync_iff (sender receiver : Session T V .authenticated) (values : List V)
    (rest : List UInt8) :
    StaysInSync sender receiver values rest ↔
      ∀ payload ∈ sender.codec.payloads values, receiver.Fits payload := by
  have hstream : StaysInSync sender receiver values rest ↔
      InSync receiver.recvStep frame (sender.codec.payloads values) rest := by
    rw [StaysInSync, run_sendStep, List.nil_append]
    rfl
  rw [hstream]
  cases values with
  | nil => exact iff_of_true (inSync_nil rest) (by simp [Codec.payloads])
  | cons value values => exact inSync_iff (sender.codec.typeOf value) _ rest

section Case

open Native

local instance sessionTarget : Target := ⟨true⟩

/-- The frame of a string under `Config::standard`. -/
def serializeText (text : String) : Outcome Error (Slice 1 UInt8) := do
  let event := Nextencode.call (.write (.str text)) fun error =>
    .done (match error with | none => .ok () | some e => .err e)
  let bytes ← (serialize (fun _ => .custom "encoding failed") .standard event).mapErr wireError
  if h : 1 * bytes.length ≤ isizeMax then .ok ⟨bytes, h⟩ else .panic

/-- The string of a frame under `Config::standard`. -/
def deserializeText (frame : List UInt8) : Outcome Error String :=
  if h : frame.length ≤ u64Max then
    match Decoder.string (Decoder.new ⟨frame, h⟩ .standard) with
    | (.ok text, decoder) =>
        if decoder.cursor = frame.length then .ok text
        else .err (wireError (.trailingBytes (frame.length - decoder.cursor)))
    | (.err _, decoder) => .err (wireError (decoder.wireError.getD (.custom "decoding failed")))
    | (.panic, _) => .panic
    | (.diverge, _) => .diverge
  else .panic

def texts : Codec Unit String where
  typeOf _ := ()
  serializeFrame := serializeText
  deserializeFrame _ := deserializeText

/-- A session that accepts every frame of at most twelve bytes. -/
def narrow : Session Unit String .authenticated :=
  ((new texts).withMaxFrameLen (some 12)).authenticate ⟨fun _ => .ok ()⟩

/-- The first frame is a byte too long, and the second one, on its own as good as any, is never
found: the call for it takes the length of a frame from the body of the first one. -/
theorem out_of_sync :
    let stream := (run narrow.sendStep ["hello world", "b"] []).2
    narrow.recvStep () (stream.drop 21) = (.ok "b", []) ∧
      (run narrow.recvStep [(), ()] stream).1 =
        [.err (wireError (.sizeLimit 12)), .err (wireError (.sizeLimit 12))] ∧
      ¬ StaysInSync narrow narrow ["hello world", "b"] [] := by
  have hstream : (run narrow.sendStep ["hello world", "b"] []).2 =
      [13, 0, 0, 0, 0, 0, 0, 0, 9, 11, 104, 101, 108, 108, 111, 32, 119, 111, 114, 108, 100,
        3, 0, 0, 0, 0, 0, 0, 0, 9, 1, 98] := by
    decide +kernel
  refine ⟨by rw [hstream]; decide +kernel, by rw [hstream]; decide +kernel, fun h => ?_⟩
  have hanswers := congrArg Prod.fst (h [(), ()] (by decide +kernel))
  rw [hstream] at hanswers
  exact absurd hanswers (by decide +kernel)

end Case

lemma accept_eq_ok {type : T} {payload : List UInt8} {value : V} :
    session.accept type payload = .ok value ↔
      ∃ verifier, session.verifier = some verifier ∧ verifier.check payload = .ok () ∧
        session.codec.deserializeFrame type payload = .ok value := by
  rw [accept, Outcome.bind_eq_ok]
  refine exists_congr fun verifier => and_congr Outcome.okOr_eq_ok ?_
  rw [Outcome.bind_eq_ok]
  exact ⟨fun ⟨_, h⟩ => h, fun h => ⟨(), h⟩⟩

/-- Values whose frames are within the bound, pass the verifier and are read back arrive all and
in order. -/
theorem recv_sent {sender receiver : Session T V .authenticated} {verifier : Verifier}
    (hverifier : receiver.verifier = some verifier) {values : List V}
    (h : ∀ value ∈ values, ∃ payload, sender.codec.serializeFrame value = .ok payload ∧
      receiver.Fits payload ∧ verifier.check payload.elems = .ok () ∧
      receiver.codec.deserializeFrame (sender.codec.typeOf value) payload.elems = .ok value)
    (rest : List UInt8) :
    run receiver.recvStep (values.map sender.codec.typeOf)
        ((run sender.sendStep values []).2 ++ rest) = (values.map .ok, rest) := by
  rw [run_sendStep, List.nil_append]
  induction values with
  | nil => rfl
  | cons value values ih =>
      obtain ⟨payload, hpayload, hfits, hcheck, hvalue⟩ := h value List.mem_cons_self
      have hone : sender.codec.payloads [value] = [payload] := by
        rw [Codec.payloads, List.filterMap_cons, hpayload]
        rfl
      have hfirst : receiver.recvStep (sender.codec.typeOf value)
          (frame payload ++ ((sender.codec.payloads values).flatMap frame ++ rest)) =
            (.ok value, (sender.codec.payloads values).flatMap frame ++ rest) := by
        rw [recvStep, recv_of_fits hfits, accept_eq_ok.mpr ⟨verifier, hverifier, hcheck, hvalue⟩]
      rw [payloads_cons _ value values, hone, List.flatMap_append, List.append_assoc,
        List.flatMap_singleton, List.map_cons, run_cons_of hfirst,
        ih fun other hmem => h other (List.mem_cons_of_mem _ hmem)]
      rfl

end Session

end RustBinary.Trust
