import RustBinary.Encryption.Exact
import RustBinary.Native.Format
import RustBinary.Trust.Session

/-!
# Channels

The ends of a connection share a key: one sends over `EncryptedConfig`, the other receives, and
between them is a network.  As long as the network only carries the stream, the values arrive once
and in order, however the calls of the two ends interleave.  Where it does what it likes with the
stream, nothing arrives that has not been sent, unless a frame has been forged; but what has been
sent arrives as often as it is carried.
-/

namespace RustBinary

open Lib Lib.Act

namespace Trust

open Aead Encryption

/-! ## Any stream -/

namespace Session

variable {T V : Type} {session : Session T V .authenticated} {stream rest : List UInt8}

lemma readExact_eq_ok {count : ℕ} {bytes : List UInt8} :
    readExact count stream = (.ok bytes, rest) ↔ bytes.length = count ∧ stream = bytes ++ rest := by
  constructor
  · intro h
    rw [readExact] at h
    split_ifs at h with hle
    · obtain ⟨rfl, rfl⟩ : stream.take count = bytes ∧ stream.drop count = rest := by simpa using h
      exact ⟨List.length_take_of_le hle, (List.take_append_drop count stream).symm⟩
    · simp at h
  · rintro ⟨hlen, rfl⟩
    exact readExact_append hlen rest

/-- A value that is received has been in a frame at the front of the stream. -/
lemma recv_eq_ok {type : T} {value : V} :
    session.recv type stream = (.ok value, rest) ↔ ∃ payload : Slice 1 UInt8,
      stream = frame payload ++ rest ∧ session.Fits payload ∧
        session.accept type payload.elems = .ok value := by
  constructor
  · intro h
    obtain ⟨head, body, hhead, hlater⟩ := bind_eq_ok.mp h
    obtain ⟨hheadLen, rfl⟩ := readExact_eq_ok.mp hhead
    obtain ⟨_, s₁, hword, hbound⟩ := bind_eq_ok.mp hlater
    obtain ⟨-, rfl⟩ := Prod.mk.inj hword
    obtain ⟨_, s₂, hmost, hpayload⟩ := bind_eq_ok.mp hbound
    obtain ⟨hfits, rfl⟩ := atMost_eq_ok.mp hmost
    obtain ⟨_, s₃, hcapacity, hread⟩ := bind_eq_ok.mp hpayload
    obtain ⟨hroom, rfl⟩ := Prod.mk.inj hcapacity
    obtain ⟨elems, tail, helems, -⟩ := bind_eq_ok.mp hread
    obtain ⟨hlen, rfl⟩ := readExact_eq_ok.mp helems
    rw [← hlen, Outcome.mapErr_eq_ok, withCapacity_eq_ok] at hroom
    rw [← hlen] at hfits
    -- the frame of what has been read
    have hback := leBytes_leNat head
    rw [hheadLen, ← hlen] at hback
    have hstream : head ++ (elems ++ tail) = frame ⟨elems, hroom⟩ ++ tail := by
      rw [frame, hback, List.append_assoc]
    rw [hstream, recv_of_fits (show session.Fits ⟨elems, hroom⟩ from hfits)] at h
    obtain ⟨haccept, rfl⟩ := Prod.mk.inj h
    exact ⟨⟨elems, hroom⟩, hstream, hfits, haccept⟩
  · rintro ⟨payload, rfl, hfits, haccept⟩
    rw [recv_of_fits hfits, haccept]

/-- A value that is serialized is sent. -/
lemma sendStep_of_ok (session : Session T V .authenticated) {value : V} {payload : Slice 1 UInt8}
    (h : session.codec.serializeFrame value = .ok payload) (output : List UInt8) :
    session.sendStep value output = (.ok (), output ++ frame payload) := by
  rw [sendStep, send, bind_run, call_run, h]
  dsimp only
  rw [Outcome.require_of (payload_le payload)]
  simp [bind_run, frame]

/-- A value that is not serialized leaves nothing. -/
lemma sendStep_of_ne (session : Session T V .authenticated) {value : V}
    (h : ∀ payload, session.codec.serializeFrame value ≠ .ok payload)
    (output : List UInt8) :
    (session.sendStep value output).2 = output ∧
      ∀ u, (session.sendStep value output).1 ≠ .ok u := by
  rw [sendStep, send, bind_run, call_run]
  rcases hframe : session.codec.serializeFrame value with payload | e | _ | _
  · exact absurd hframe (h payload)
  all_goals simp

/-- **What is received.** Calls on any stream all succeed exactly when the stream starts with as many
frames, one behind the other, each one within the bound of the session, accepted by its verifier and
read as its value; they leave what is behind the frames. -/
theorem run_recv_iff (session : Session T V .authenticated) (types : List T) (values : List V)
    (stream rest : List UInt8) :
    run session.recvStep types stream = (values.map .ok, rest) ↔
      ∃ payloads : List (Slice 1 UInt8), types.length = payloads.length ∧
        stream = payloads.flatMap frame ++ rest ∧ (∀ payload ∈ payloads, session.Fits payload) ∧
        List.zipWith (fun type payload => session.accept type payload.elems) types payloads =
          values.map .ok := by
  induction types generalizing values stream with
  | nil =>
      constructor
      · intro h
        obtain ⟨hvalues, rfl⟩ := Prod.mk.inj h
        exact ⟨[], rfl, rfl, by simp, by simpa using hvalues⟩
      · rintro ⟨payloads, hlen, rfl, -, hvalues⟩
        obtain rfl := List.length_eq_zero_iff.mp hlen.symm
        exact Prod.ext hvalues rfl
  | cons type types ih =>
      constructor
      · intro h
        obtain ⟨hvalues, hrest⟩ := Prod.mk.inj h
        cases values with
        | nil => cases hvalues
        | cons value values =>
            rw [List.map_cons, List.cons.injEq] at hvalues
            rcases hstep : session.recvStep type stream with ⟨out, behind⟩
            rw [hstep] at hvalues hrest
            obtain ⟨payload, rfl, hfits, haccept⟩ :=
              recv_eq_ok.mp (hstep.trans (Prod.ext hvalues.1 rfl))
            obtain ⟨payloads, hlen, rfl, hall, hzip⟩ :=
              (ih values behind).mp (Prod.ext hvalues.2 hrest)
            refine ⟨payload :: payloads, by simp [hlen], ?_, ?_, ?_⟩
            · rw [List.flatMap_cons, List.append_assoc]
            · exact List.forall_mem_cons.mpr ⟨hfits, hall⟩
            · rw [List.zipWith_cons_cons, hzip, haccept, List.map_cons]
      · rintro ⟨payloads, hlen, rfl, hall, hzip⟩
        cases payloads with
        | nil => cases hlen
        | cons payload payloads =>
            cases values with
            | nil => cases hzip
            | cons value values =>
                obtain ⟨hfits, hall⟩ := List.forall_mem_cons.mp hall
                rw [List.zipWith_cons_cons, List.map_cons, List.cons.injEq] at hzip
                have hfirst : session.recvStep type
                    ((payload :: payloads).flatMap frame ++ rest) =
                      (.ok value, payloads.flatMap frame ++ rest) := by
                  rw [List.flatMap_cons, List.append_assoc, recvStep, recv_of_fits hfits, hzip.1]
                rw [run_cons_of hfirst, (ih values _).mpr
                  ⟨payloads, Nat.succ.inj hlen, rfl, hall, hzip.2⟩]
                rfl

end Session

/-! ## Two ends and a network -/

section Ends

variable {V : Type} (c : EncryptedConfig V) (maxFrameLen : Option ℕ) (verifier : Verifier)

/-- A frame, as the vector that it is in. -/
def toVec (bytes : List UInt8) : Outcome Error (Slice 1 UInt8) :=
  if h : 1 * bytes.length ≤ isizeMax then .ok ⟨bytes, h⟩ else .panic

/-- `Codec for EncryptedConfig`, for a call that the source of randomness gives `random`. -/
def encrypted (random : Outcome String XNonce) : Codec Unit V where
  typeOf _ := ()
  serializeFrame value := ((c.serialize random value).mapErr .codec) >>= toVec
  deserializeFrame _ input := (c.deserialize input).mapErr .codec

/-- A session over the codec, at the time of a call. -/
def endpoint (random : Outcome String XNonce) : Session Unit V .authenticated :=
  ((Session.new (encrypted c random)).withMaxFrameLen maxFrameLen).authenticate verifier

/-- What has been sent, what is on its way, and what has been received. -/
structure Channel (V : Type) where
  sent : List (XNonce × V)
  stream : List UInt8
  received : List V

/-- What happens to a channel: a call of an end, or an intervention of the network. -/
inductive Channel.Event (V : Type) where
  | send (random : Outcome String XNonce) (value : V)
  | recv
  | interfere (stream : List UInt8)

namespace Channel

def start : Channel V := ⟨[], [], []⟩

/-- What an event does, and what the caller is told. -/
def step : Event V → Channel V → Outcome Error (Option V) × Channel V
  | .send random value, s =>
      let (out, stream) := (endpoint c maxFrameLen verifier random).sendStep value s.stream
      let entry := match out, random with
        | .ok _, .ok nonce => [(nonce, value)]
        | _, _ => []
      ((fun _ => none) <$> out, { s with sent := s.sent ++ entry, stream := stream })
  | .recv, s =>
      let (out, stream) := (endpoint c maxFrameLen verifier (.err "")).recvStep () s.stream
      (some <$> out, { s with stream := stream, received := s.received ++ out.ok?.toList })
  | .interfere stream, s => (.ok none, { s with stream := stream })

variable {c maxFrameLen verifier} {random : Outcome String XNonce} {value : V} {s : Channel V}

lemma encrypted_serializeFrame {payload : Slice 1 UInt8} :
    (encrypted c random).serializeFrame value = .ok payload ↔
      c.serialize random value = .ok payload.elems := by
  change (c.serialize random value).mapErr .codec >>= toVec = _ ↔ _
  rw [Outcome.bind_eq_ok]
  constructor
  · rintro ⟨bytes, hbytes, h⟩
    rw [toVec] at h
    split_ifs at h
    obtain rfl := Outcome.ok.inj h
    exact Outcome.mapErr_eq_ok.mp hbytes
  · intro h
    exact ⟨payload.elems, Outcome.mapErr_eq_ok.mpr h, dif_pos payload.length_le⟩

variable (c maxFrameLen verifier) in
/-- A call of `send` seals a value and writes its frame, or does nothing. -/
lemma step_send (random : Outcome String XNonce) (value : V) (s : Channel V) :
    (∃ nonce payload, random = .ok nonce ∧ c.serialize random value = .ok payload.elems ∧
      step c maxFrameLen verifier (.send random value) s = (.ok none,
        ⟨s.sent ++ [(nonce, value)], s.stream ++ frame payload, s.received⟩)) ∨
    (step c maxFrameLen verifier (.send random value) s).2 = s := by
  by_cases h : ∃ payload, (encrypted c random).serializeFrame value = .ok payload
  · obtain ⟨payload, hpayload⟩ := h
    have hserialize := encrypted_serializeFrame.mp hpayload
    obtain ⟨nonce, _, _, rfl, -⟩ := EncryptedConfig.sealed_of_serialize hserialize
    refine .inl ⟨nonce, payload, rfl, hserialize, ?_⟩
    have hsend := Session.sendStep_of_ok
      (endpoint c maxFrameLen verifier (.ok nonce)) hpayload s.stream
    rw [step, hsend]
    rfl
  · obtain ⟨hstream, hout⟩ := Session.sendStep_of_ne
      (endpoint c maxFrameLen verifier random) (not_exists.mp h) s.stream
    refine .inr ?_
    rw [step]
    generalize (endpoint c maxFrameLen verifier random).sendStep value s.stream = result
      at hstream hout
    obtain ⟨out, stream⟩ := result
    obtain rfl : stream = s.stream := hstream
    cases out with
    | ok u => exact absurd rfl (hout u)
    | err e => exact congrArg (Channel.mk · s.stream s.received) (List.append_nil _)
    | panic => exact congrArg (Channel.mk · s.stream s.received) (List.append_nil _)
    | diverge => exact congrArg (Channel.mk · s.stream s.received) (List.append_nil _)

variable (c maxFrameLen verifier) in
/-- What is received is read off a frame at the front of the stream. -/
lemma step_recv (s : Channel V) :
    (∃ value payload rest, s.stream = frame payload ++ rest ∧
      c.deserialize payload.elems = .ok value ∧
      step c maxFrameLen verifier .recv s = (.ok (some value),
        ⟨s.sent, rest, s.received ++ [value]⟩)) ∨
    ∃ rest, (step c maxFrameLen verifier .recv s).2 = { s with stream := rest } := by
  rcases hrecv : (endpoint c maxFrameLen verifier (.err "")).recvStep () s.stream with ⟨out, rest⟩
  rw [step, hrecv]
  cases out with
  | ok value =>
      obtain ⟨payload, hstream, -, haccept⟩ := Session.recv_eq_ok.mp hrecv
      obtain ⟨_, -, -, hvalue⟩ := Session.accept_eq_ok.mp haccept
      exact .inl ⟨value, payload, rest, hstream, Outcome.mapErr_eq_ok.mp hvalue, rfl⟩
  | err e => exact .inr ⟨rest, congrArg (Channel.mk s.sent rest) (List.append_nil _)⟩
  | panic => exact .inr ⟨rest, congrArg (Channel.mk s.sent rest) (List.append_nil _)⟩
  | diverge => exact .inr ⟨rest, congrArg (Channel.mk s.sent rest) (List.append_nil _)⟩

/-! ### A network that carries the stream -/

/-- The frame of an entry, which the receiver has room for, whose verifier accepts it and which
keeps the limits of the payload format. -/
structure Carried (c : EncryptedConfig V) (maxFrameLen : Option ℕ) (verifier : Verifier)
    (entry : XNonce × V) (payload : Slice 1 UInt8) : Prop where
  serialize_eq : c.serialize (.ok entry.1) entry.2 = .ok payload.elems
  within : c.payload.WithinLimits entry.2
  fits : ∀ limit, maxFrameLen = some limit → payload.elems.length ≤ limit
  check_eq : verifier.check payload.elems = .ok ()

/-- A carried frame at the front is received. -/
lemma step_recv_carried {entry : XNonce × V} {payload : Slice 1 UInt8}
    (h : Carried c maxFrameLen verifier entry payload) (sent : List (XNonce × V))
    (rest : List UInt8) (received : List V) :
    step c maxFrameLen verifier .recv ⟨sent, frame payload ++ rest, received⟩ =
      (.ok (some entry.2), ⟨sent, rest, received ++ [entry.2]⟩) := by
  have hrecv : (endpoint c maxFrameLen verifier (.err "")).recvStep () (frame payload ++ rest) =
      (.ok entry.2, rest) :=
    Session.recv_eq_ok.mpr ⟨payload, rfl, h.fits, Session.accept_eq_ok.mpr
      ⟨verifier, rfl, h.check_eq, Outcome.mapErr_eq_ok.mpr
        (EncryptedConfig.deserialize_of_serialize h.serialize_eq h.within)⟩⟩
  rw [step, hrecv]
  rfl

/-- Carried frames are received one after the other. -/
lemma run_recv_carried {entries : List (XNonce × V)} {payloads : List (Slice 1 UInt8)}
    (h : List.Forall₂ (Carried c maxFrameLen verifier) entries payloads)
    (sent : List (XNonce × V)) (rest : List UInt8) (received : List V) :
    run (step c maxFrameLen verifier) (List.replicate entries.length .recv)
        ⟨sent, payloads.flatMap frame ++ rest, received⟩ =
      (entries.map fun entry => .ok (some entry.2),
        ⟨sent, rest, received ++ entries.map Prod.snd⟩) := by
  induction h generalizing received with
  | nil => simp
  | @cons entry payload entries payloads hfirst _ ih =>
      rw [List.flatMap_cons, List.append_assoc, List.length_cons, List.replicate_succ,
        run_cons_of (step_recv_carried hfirst _ _ _), ih]
      simp

/-- There is nothing to receive on an empty stream. -/
lemma step_recv_nil (sent : List (XNonce × V)) (received : List V) :
    (step c maxFrameLen verifier .recv ⟨sent, [], received⟩).2 = ⟨sent, [], received⟩ :=
  congrArg (Channel.mk sent []) (List.append_nil _)

/-- What an end sends: a value within the limits, whose frame the other end takes. -/
def Deliverable (c : EncryptedConfig V) (maxFrameLen : Option ℕ) (verifier : Verifier)
    (random : Outcome String XNonce) (value : V) : Prop :=
  c.payload.WithinLimits value ∧ ∀ payload, c.serialize random value = .ok payload →
    (∀ limit, maxFrameLen = some limit → payload.length ≤ limit) ∧ verifier.check payload = .ok ()

/-- The events of a network that only carries the stream. -/
def Event.Honest (c : EncryptedConfig V) (maxFrameLen : Option ℕ) (verifier : Verifier) :
    Event V → Prop
  | .send random value => Deliverable c maxFrameLen verifier random value
  | .recv => True
  | .interfere _ => False

/-- What has been sent has been received, in order, or is on its way, in order. -/
def InOrder (c : EncryptedConfig V) (maxFrameLen : Option ℕ) (verifier : Verifier)
    (s : Channel V) : Prop :=
  ∃ entries payloads, List.Forall₂ (Carried c maxFrameLen verifier) entries payloads ∧
    s.stream = payloads.flatMap frame ∧ s.sent.map Prod.snd = s.received ++ entries.map Prod.snd

lemma inOrder_start : InOrder c maxFrameLen verifier start := ⟨[], [], .nil, rfl, rfl⟩

/-- Both ends keep the order. -/
lemma inOrder_step {event : Event V} (hhonest : event.Honest c maxFrameLen verifier)
    (h : InOrder c maxFrameLen verifier s) :
    InOrder c maxFrameLen verifier (step c maxFrameLen verifier event s).2 := by
  obtain ⟨entries, payloads, hcarried, hstream, hsent⟩ := h
  cases event with
  | send random value =>
      rcases step_send c maxFrameLen verifier random value s with
        ⟨nonce, payload, rfl, hserialize, hstep⟩ | hstep
      · obtain ⟨hwithin, htakes⟩ := hhonest
        obtain ⟨hfits, hcheck⟩ := htakes _ hserialize
        rw [hstep]
        refine ⟨entries ++ [(nonce, value)], payloads ++ [payload],
          List.rel_append hcarried (.cons ⟨hserialize, hwithin, hfits, hcheck⟩ .nil), ?_, ?_⟩
        · simp [hstream]
        · simp [hsent]
      · rw [hstep]
        exact ⟨entries, payloads, hcarried, hstream, hsent⟩
  | recv =>
      obtain ⟨sent, stream, received⟩ := s
      obtain rfl : stream = payloads.flatMap frame := hstream
      cases hcarried with
      | nil =>
          rw [List.flatMap_nil, step_recv_nil]
          exact ⟨[], [], .nil, rfl, hsent⟩
      | @cons entry payload entries payloads hfirst hrest =>
          rw [List.flatMap_cons, step_recv_carried hfirst]
          refine ⟨entries, payloads, hrest, rfl, ?_⟩
          rw [List.append_assoc]
          exact hsent
  | interfere stream => exact hhonest.elim

/-- **Delivery.** However the calls of the two ends interleave, and whatever the source of
randomness does, the values whose calls of `send` have succeeded have been received in order, once
each, up to some that are still on their way; and these are what the next calls of `recv` come back
with. -/
theorem delivered_in_order (c : EncryptedConfig V) (maxFrameLen : Option ℕ) (verifier : Verifier)
    (events : List (Event V)) (h : ∀ event ∈ events, event.Honest c maxFrameLen verifier) :
    let s := (run (step c maxFrameLen verifier) events start).2
    ∃ pending : List V, s.sent.map Prod.snd = s.received ++ pending ∧
      run (step c maxFrameLen verifier) (List.replicate pending.length .recv) s =
        (pending.map fun value => .ok (some value), ⟨s.sent, [], s.received ++ pending⟩) := by
  have hinv : InOrder c maxFrameLen verifier (run (step c maxFrameLen verifier) events start).2 :=
    run_preserves_of (Q := Event.Honest c maxFrameLen verifier)
      (fun _ _ hevent hs => inOrder_step hevent hs) h inOrder_start
  obtain ⟨entries, payloads, hcarried, hstream, hsent⟩ := hinv
  refine ⟨entries.map Prod.snd, hsent, ?_⟩
  have hrun := run_recv_carried hcarried
    (run (step c maxFrameLen verifier) events start).2.sent []
    (run (step c maxFrameLen verifier) events start).2.received
  rw [List.append_nil, ← hstream] at hrun
  rw [List.length_map, List.map_map]
  exact hrun

/-! ### A network that does what it likes -/

/-- A frame stands on the stream that opens under the key and that no call of `send` has made. -/
def Forged (c : EncryptedConfig V) (s : Channel V) : Prop :=
  ∃ nonce plaintext ciphertext, c.Sealed nonce plaintext ciphertext ∧
    EncryptedConfig.headerOf nonce plaintext ++ ciphertext <:+: s.stream ∧
    ∀ entry ∈ s.sent, c.serialize (.ok entry.1) entry.2 ≠
      .ok (EncryptedConfig.headerOf nonce plaintext ++ ciphertext)

/-- What has been received has been sent. -/
structure Authentic (c : EncryptedConfig V) (s : Channel V) : Prop where
  sent_of_received : ∀ value ∈ s.received, ∃ nonce, (nonce, value) ∈ s.sent
  within : ∀ entry ∈ s.sent, c.payload.WithinLimits entry.2

/-- What is received from a stream without a forged frame has been sent. -/
lemma authentic_recv (h : Authentic c s) (hforged : ¬ Forged c s) :
    Authentic c (step c maxFrameLen verifier .recv s).2 := by
  rcases step_recv c maxFrameLen verifier s with
    ⟨value, payload, rest, hstream, hvalue, hstep⟩ | ⟨rest, hstep⟩
  · rw [hstep]
    refine ⟨fun other hother => ?_, h.within⟩
    rcases List.mem_append.mp hother with hother | hother
    · exact h.sent_of_received other hother
    · obtain rfl := List.mem_singleton.mp hother
      obtain ⟨nonce, plaintext, ciphertext, tail, hsealed, helems, -, hpayload⟩ :=
        EncryptedConfig.deserialize_eq_ok.mp hvalue
      have hinfix : EncryptedConfig.headerOf nonce plaintext ++ ciphertext <:+: s.stream := by
        refine ⟨leBytes 8 payload.elems.length, tail ++ rest, ?_⟩
        rw [hstream, frame, helems]
        simp only [List.append_assoc]
      by_contra hunsent
      refine hforged ⟨nonce, plaintext, ciphertext, hsealed, hinfix, fun entry hentry heq => ?_⟩
      -- the entry would be read as its own value and as the one that is received
      have hwhole : c.deserialize (EncryptedConfig.headerOf nonce plaintext ++ ciphertext) =
          .ok other :=
        EncryptedConfig.deserialize_eq_ok.mpr ⟨nonce, plaintext, ciphertext, [], hsealed,
          by rw [List.append_nil], fun _ => rfl, hpayload⟩
      rw [EncryptedConfig.deserialize_of_serialize heq (h.within entry hentry)] at hwhole
      obtain rfl := Outcome.ok.inj hwhole
      exact hunsent ⟨entry.1, hentry⟩
  · rw [hstep]
    exact ⟨h.sent_of_received, h.within⟩

/-- **Authenticity.** Whatever the network does with the stream, what is received has been sent,
unless a call of `recv` has found a forged frame on the stream. -/
theorem received_sent_or_forged (c : EncryptedConfig V) (maxFrameLen : Option ℕ)
    (verifier : Verifier) (events : List (Event V))
    (hwithin : ∀ random value, .send random value ∈ events → c.payload.WithinLimits value) :
    let s := (run (step c maxFrameLen verifier) events start).2
    (∀ value ∈ s.received, ∃ nonce, (nonce, value) ∈ s.sent) ∨
      ∃ before after, events = before ++ .recv :: after ∧
        Forged c (run (step c maxFrameLen verifier) before start).2 := by
  suffices hrun : ∀ s : Channel V, Authentic c s →
      Authentic c (run (step c maxFrameLen verifier) events s).2 ∨
        ∃ before after, events = before ++ .recv :: after ∧
          Forged c (run (step c maxFrameLen verifier) before s).2 from
    (hrun start ⟨by simp [start], by simp [start]⟩).imp_left Authentic.sent_of_received
  induction events with
  | nil => exact fun s hs => .inl hs
  | cons event events ih =>
      intro s hs
      have hlater := ih fun random value hmem => hwithin random value (List.mem_cons_of_mem _ hmem)
      have hnext : Authentic c (step c maxFrameLen verifier event s).2 ∨
          event = .recv ∧ Forged c s := by
        cases event with
        | send random value =>
            left
            rcases step_send c maxFrameLen verifier random value s with ⟨nonce, payload, -, -, hstep⟩ | hstep
            · rw [hstep]
              refine ⟨fun other hother => ?_, fun entry hentry => ?_⟩
              · obtain ⟨nonce, hmem⟩ := hs.sent_of_received other hother
                exact ⟨nonce, List.mem_append_left _ hmem⟩
              · rcases List.mem_append.mp hentry with hentry | hentry
                · exact hs.within entry hentry
                · rw [List.mem_singleton.mp hentry]
                  exact hwithin random value List.mem_cons_self
            · rw [hstep]
              exact hs
        | recv =>
            by_cases hforged : Forged c s
            · exact .inr ⟨rfl, hforged⟩
            · exact .inl (authentic_recv hs hforged)
        | interfere stream => exact .inl ⟨hs.sent_of_received, hs.within⟩
      rcases hnext with hnext | ⟨rfl, hforged⟩
      · rcases hlater _ hnext with hdone | ⟨before, after, rfl, hforged⟩
        · exact .inl hdone
        · exact .inr ⟨event :: before, after, rfl, hforged⟩
      · exact .inr ⟨[], events, rfl, hforged⟩

/-- Every entry has been sealed. -/
lemma exists_payload_of_sent (events : List (Event V)) :
    ∀ entry ∈ (run (step c maxFrameLen verifier) events start).2.sent,
      ∃ payload : Slice 1 UInt8, c.serialize (.ok entry.1) entry.2 = .ok payload.elems := by
  refine run_preserves (P := fun s : Channel V => ∀ entry ∈ s.sent,
    ∃ payload : Slice 1 UInt8, c.serialize (.ok entry.1) entry.2 = .ok payload.elems) ?_ events
    (by simp [start])
  intro event s hs
  cases event with
  | send random value =>
      rcases step_send c maxFrameLen verifier random value s
        with ⟨nonce, payload, rfl, hserialize, hstep⟩ | hstep
      · rw [hstep]
        intro entry hentry
        rcases List.mem_append.mp hentry with hentry | hentry
        · exact hs entry hentry
        · rw [List.mem_singleton.mp hentry]
          exact ⟨payload, hserialize⟩
      · rw [hstep]
        exact hs
  | recv =>
      rcases step_recv c maxFrameLen verifier s with
        ⟨value, payload, rest, -, -, hstep⟩ | ⟨rest, hstep⟩
      · rw [hstep]
        exact hs
      · rw [hstep]
        exact hs
  | interfere stream => exact hs

/-- **No freshness.** A network that has seen what has been sent can have it received again: any of
the entries, in any order and as often as it likes. -/
theorem replayed_received (c : EncryptedConfig V) (maxFrameLen : Option ℕ) (verifier : Verifier)
    (events : List (Event V)) (entries : List (XNonce × V))
    (hsent : ∀ entry ∈ entries, entry ∈ (run (step c maxFrameLen verifier) events start).2.sent)
    (htakes : ∀ entry ∈ entries, Deliverable c maxFrameLen verifier (.ok entry.1) entry.2) :
    let s := (run (step c maxFrameLen verifier) events start).2
    ∃ stream, run (step c maxFrameLen verifier)
        (.interfere stream :: List.replicate entries.length .recv) s =
      (.ok none :: entries.map fun entry => .ok (some entry.2),
        ⟨s.sent, [], s.received ++ entries.map Prod.snd⟩) := by
  intro s
  obtain ⟨payloads, hcarried⟩ : ∃ payloads,
      List.Forall₂ (Carried c maxFrameLen verifier) entries payloads := by
    clear_value s
    induction entries with
    | nil => exact ⟨[], .nil⟩
    | cons entry entries ih =>
        obtain ⟨payload, hserialize⟩ :=
          exists_payload_of_sent events entry (hsent entry List.mem_cons_self)
        obtain ⟨hwithin, hpayload⟩ := htakes entry List.mem_cons_self
        obtain ⟨hfits, hcheck⟩ := hpayload _ hserialize
        obtain ⟨payloads, hcarried⟩ := ih
          (fun other hother => hsent other (List.mem_cons_of_mem _ hother))
          (fun other hother => htakes other (List.mem_cons_of_mem _ hother))
        exact ⟨payload :: payloads, .cons ⟨hserialize, hwithin, hfits, hcheck⟩ hcarried⟩
  refine ⟨payloads.flatMap frame, ?_⟩
  have hrun := run_recv_carried hcarried s.sent [] s.received
  rw [List.append_nil] at hrun
  have hfirst : step c maxFrameLen verifier (.interfere (payloads.flatMap frame)) s =
      (.ok none, ⟨s.sent, payloads.flatMap frame, s.received⟩) := rfl
  rw [run_cons_of hfirst, hrun]

section Witness

local instance littleEndian : Target := ⟨true⟩

/-- Strings under a key. -/
def texts : EncryptedConfig String :=
  .binary (Native.WireType.text.format (fun _ => .invalidUtf8) .standard) (Vector.replicate 32 0x42)

def trusting : Verifier := ⟨fun _ => .ok ()⟩

lemma deliverable_texts (random : Outcome String XNonce) (value : String) :
    Deliverable texts none trusting random value :=
  ⟨trivial, fun _ _ => ⟨fun _ h => (nomatch h), rfl⟩⟩

/-- The source of randomness fails between two strings. -/
theorem delivered_in_order_texts :
    let events := [.send (.ok (Vector.replicate 24 1)) "hi", .recv,
      .send (.err "getrandom") "lost", .send (.ok (Vector.replicate 24 2)) "b"]
    let s := (run (step texts none trusting) events start).2
    ∃ pending : List String, s.sent.map Prod.snd = s.received ++ pending ∧
      run (step texts none trusting) (List.replicate pending.length .recv) s =
        (pending.map fun value => .ok (some value), ⟨s.sent, [], s.received ++ pending⟩) :=
  delivered_in_order texts none trusting _ fun event hevent => by
    simp only [List.mem_cons, List.not_mem_nil, or_false] at hevent
    rcases hevent with rfl | rfl | rfl | rfl
    · exact deliverable_texts _ _
    · trivial
    · exact deliverable_texts _ _
    · exact deliverable_texts _ _

/-- The network drops what has been sent and makes a frame up. -/
theorem received_sent_or_forged_texts :
    let events := [.send (.ok (Vector.replicate 24 1)) "hi",
      .interfere (leBytes 8 3 ++ [0x52, 0x42, 0x58]), .recv]
    let s := (run (step texts none trusting) events start).2
    (∀ value ∈ s.received, ∃ nonce, (nonce, value) ∈ s.sent) ∨
      ∃ before after, events = before ++ .recv :: after ∧
        Forged texts (run (step texts none trusting) before start).2 :=
  received_sent_or_forged texts none trusting _ fun _ _ _ => trivial

/-- A string is sent once and received twice. -/
theorem replayed_received_texts :
    let s := (run (step texts none trusting)
      [.send (.ok (Vector.replicate 24 1)) "hi"] start).2
    ∃ stream, run (step texts none trusting) [.interfere stream, .recv, .recv] s =
      ([.ok none, .ok (some "hi"), .ok (some "hi")], ⟨s.sent, [], s.received ++ ["hi", "hi"]⟩) := by
  have hsent : (run (step texts none trusting)
      [.send (.ok (Vector.replicate 24 1)) "hi"] start).2.sent =
        [(Vector.replicate 24 1, "hi")] := by
    decide +kernel
  have hentry : ∀ entry ∈ [(Vector.replicate 24 1, "hi"), (Vector.replicate 24 1, "hi")],
      entry ∈ (run (step texts none trusting)
        [.send (.ok (Vector.replicate 24 1)) "hi"] start).2.sent := by
    rw [hsent]
    simp
  exact replayed_received texts none trusting _ _ hentry fun _ _ => deliverable_texts _ _

end Witness

end Channel

end Ends

end Trust

end RustBinary
