import RustBinary.Lib.Act
import RustBinary.Lib.Run

/-!
# Programs that read

A program asks its source for a number of elements and goes on with those that it is given, which
are fewer only at the end of the source.  The source hands them out in pieces of any length, into
buffers of any length, is interrupted in between, and may fail.  None of this shows: a program does
on a reader what it does on the list of the elements, as long as it does not ask for more than there
are in front of a failure.

* `Reader.fetch`: asking again until there is enough;
* `Reading`: a program, with its two meanings `Reading.onStream` and `Reading.onReader`;
* `Reading.onReader_of_stays`, `Reading.onReader_of_asks`: how the two agree;
* `Reading.run_arrived`: the frames of a connection that breaks off.
-/

namespace Lib

/-- What a call of `read` meets: elements, at least one; an interruption; a failure. -/
inductive Piece (φ β : Type) where
  | elems (first : β) (more : List β)
  | interrupted
  | failed (fault : φ)
deriving DecidableEq, Repr

/-- A reader, by what the calls of `read` meet.  Behind the last piece it is at its end. -/
abbrev Reader (φ β : Type) := List (Piece φ β)

namespace Reader

variable {φ β : Type}

/-- The elements in front of the first failure. -/
def contents : Reader φ β → List β
  | [] => []
  | .elems first more :: rest => first :: (more ++ contents rest)
  | .interrupted :: rest => contents rest
  | .failed _ :: _ => []

/-- The first failure. -/
def fault : Reader φ β → Option φ
  | [] => none
  | .elems _ _ :: rest => fault rest
  | .interrupted :: rest => fault rest
  | .failed fault :: _ => some fault

/-- Why a call of `read` gives nothing. -/
inductive Stop (φ : Type) where
  | interrupted
  | failed (fault : φ)

/-- `read`, with room for `size` elements. -/
def read (size : ℕ) : Reader φ β → Except (Stop φ) (List β) × Reader φ β
  | [] => (.ok [], [])
  | .elems first more :: rest =>
      (.ok ((first :: more).take size),
        match (first :: more).drop size with
        | [] => rest
        | next :: later => .elems next later :: rest)
  | .interrupted :: rest => (.error .interrupted, rest)
  | .failed fault :: rest => (.error (.failed fault), rest)

/-- How many calls of `read` there can be before the reader is at its end, and the one that finds
it there. -/
def calls : Reader φ β → ℕ
  | [] => 1
  | .elems _ more :: rest => more.length + 1 + calls rest
  | .interrupted :: rest => 1 + calls rest
  | .failed _ :: rest => 1 + calls rest

/-- `read` again and again until there are `count` elements, or no more; an interruption is passed
over.  The room of the buffer is `room`, at least one element and no more than are missing. -/
def fill (room : Reader φ β → ℕ) : ℕ → ℕ → Reader φ β → Outcome φ (List β) × Reader φ β
  | 0, _, reader => (.diverge, reader)
  | _ + 1, 0, reader => (.ok [], reader)
  | fuel + 1, count + 1, reader =>
      match read (min (room reader) count + 1) reader with
      | (.ok [], rest) => (.ok [], rest)
      | (.ok (first :: more), rest) =>
          let (out, last) := fill room fuel (count - more.length) rest
          (out >>= fun elems => .ok (first :: more ++ elems), last)
      | (.error .interrupted, rest) => fill room fuel (count + 1) rest
      | (.error (.failed fault), rest) => (.err fault, rest)

/-- `count` elements, or all that there are. -/
def fetch (room : Reader φ β → ℕ) (count : ℕ) (reader : Reader φ β) :
    Outcome φ (List β) × Reader φ β :=
  fill room (reader.calls + 1) count reader

/-- What comes of asking for `count` elements. -/
inductive Fetched (count : ℕ) (reader : Reader φ β) :
    Outcome φ (List β) × Reader φ β → Prop
  | given {rest : Reader φ β} (henough : count ≤ reader.contents.length ∨ reader.fault = none)
      (hcontents : rest.contents = reader.contents.drop count)
      (hfault : rest.fault = reader.fault) :
      Fetched count reader (.ok (reader.contents.take count), rest)
  | failed {rest : Reader φ β} {fault : φ} (hshort : reader.contents.length < count)
      (hfault : reader.fault = some fault) : Fetched count reader (.err fault, rest)

/-- A piece in a buffer: a part of it, and the reader that is left. -/
lemma read_elems (size : ℕ) (first : β) (more : List β) (rest : Reader φ β) :
    ∃ taken later, read (size + 1) (.elems first more :: rest) = (.ok (first :: taken), later) ∧
      taken.length ≤ size ∧ first :: taken ++ later.contents =
        (Reader.contents (.elems first more :: rest)) ∧ later.fault = rest.fault ∧
      later.calls + taken.length + 1 = Reader.calls (.elems first more :: rest) := by
  refine ⟨more.take size, (read (size + 1) (.elems first more :: rest)).2, rfl,
    List.length_take_le _ _, ?_⟩
  have hsplit : more.take size ++ more.drop size = more := List.take_append_drop _ _
  have hlength : (more.take size).length + (more.drop size).length = more.length := by
    rw [← List.length_append, hsplit]
  rw [read, List.drop_succ_cons]
  rcases hdrop : more.drop size with _ | ⟨next, later⟩
  · -- the buffer takes the piece
    rw [hdrop, List.append_nil] at hsplit
    simp [contents, calls, hsplit]
    omega
  · rw [hdrop] at hsplit hlength
    refine ⟨?_, rfl, ?_⟩
    · simp only [contents]
      conv_rhs => rw [← hsplit]
      simp
    · simp only [calls]
      simp only [List.length_cons] at hlength
      omega

lemma fill_spec (room : Reader φ β → ℕ) : ∀ (fuel count : ℕ) (reader : Reader φ β),
    reader.calls < fuel → Fetched count reader (fill room fuel count reader)
  | 0, _, _, h => absurd h (Nat.not_lt_zero _)
  | fuel + 1, 0, reader, _ => .given (.inl (Nat.zero_le _)) rfl rfl
  | fuel + 1, count + 1, [], _ => .given (.inr rfl) rfl rfl
  | fuel + 1, count + 1, .interrupted :: rest, h => by
      have hrest := fill_spec room fuel (count + 1) rest (by
        simp only [calls] at h
        omega)
      -- nothing is read, so that the same is still to be found
      change Fetched (count + 1) _ (fill room fuel (count + 1) rest)
      generalize fill room fuel (count + 1) rest = result at hrest
      cases hrest with
      | given henough hcontents hfault => exact .given henough hcontents hfault
      | failed hshort hfault => exact .failed hshort hfault
  | fuel + 1, count + 1, .failed fault :: rest, _ => .failed (Nat.succ_pos count) rfl
  | fuel + 1, count + 1, .elems first more :: rest, h => by
      obtain ⟨taken, later, hread, hsize, hcontents, hfault, hcalls⟩ :=
        read_elems (min (room (.elems first more :: rest)) count) first more rest
      have hcount : taken.length ≤ count := Nat.le_trans hsize (Nat.min_le_right _ _)
      have hlater := fill_spec room fuel (count - taken.length) later (by omega)
      have hstep : fill room (fuel + 1) (count + 1) (.elems first more :: rest) =
          ((fill room fuel (count - taken.length) later).1 >>=
            fun elems => .ok (first :: taken ++ elems),
            (fill room fuel (count - taken.length) later).2) := by
        rw [fill, hread]
      rw [hstep]
      generalize hresult : fill room fuel (count - taken.length) later = result at hlater
      have hlength := congrArg List.length hcontents
      simp only [List.length_append, List.length_cons] at hlength
      cases hlater with
      | given henough hrest hfault' =>
          rw [Outcome.ok_bind, show first :: taken ++ later.contents.take (count - taken.length)
              = (Reader.contents (.elems first more :: rest)).take (count + 1) by
            rw [← hcontents, List.cons_append, List.cons_append, List.take_succ_cons,
              List.take_append, List.take_of_length_le hcount]]
          refine .given (henough.imp (fun hle => by omega) fun hnone => hfault ▸ hnone) ?_
            (hfault'.trans hfault)
          rw [hrest, ← hcontents, List.cons_append, List.drop_succ_cons, List.drop_append,
            List.drop_of_length_le hcount, List.nil_append]
      | failed hshort hfault' => exact .failed (by omega) (hfault ▸ hfault')

lemma fetch_spec (room : Reader φ β → ℕ) (count : ℕ) (reader : Reader φ β) :
    Fetched count reader (fetch room count reader) :=
  fill_spec room _ count reader (Nat.lt_succ_self _)

end Reader

/-! ## Programs -/

/-- A program that reads: it is done, or asks for `count` elements and goes on with those that it
is given. -/
inductive Reading (β ε α : Type) where
  | done (out : Outcome ε α)
  | fetch (count : ℕ) (next : List β → Reading β ε α)

/-- The errors of a program, and the failures of what it reads from. -/
inductive ReadError (φ ε : Type) where
  | io (fault : φ)
  | error (error : ε)
deriving DecidableEq, Repr

namespace Reading

variable {β ε α γ φ : Type}

/-- One program after the other. -/
def andThen : Reading β ε α → (α → Reading β ε γ) → Reading β ε γ
  | done (.ok a), f => f a
  | done (.err e), _ => done (.err e)
  | done .panic, _ => done .panic
  | done .diverge, _ => done .diverge
  | fetch count next, f => fetch count fun elems => (next elems).andThen f

instance : Monad (Reading β ε) where
  pure a := done (.ok a)
  bind := andThen

/-- `read_exact`, with the error of a source that is at its end. -/
def readExact (count : ℕ) (eof : ε) : Reading β ε (List β) :=
  fetch count fun elems => done (if elems.length = count then .ok elems else .err eof)

/-- `take(count).read_to_end`. -/
def readToEnd (count : ℕ) : Reading β ε (List β) := fetch count fun elems => done (.ok elems)

/-- What the program does on a list. -/
def onStream : Reading β ε α → Act (List β) ε α
  | done out, stream => (out, stream)
  | fetch count next, stream => (next (stream.take count)).onStream (stream.drop count)

/-- What the program does on a reader. -/
def onReader (room : Reader φ β → ℕ) : Reading β ε α → Act (Reader φ β) (ReadError φ ε) α
  | done out, reader => (out.mapErr .error, reader)
  | fetch count next, reader =>
      match reader.fetch room count with
      | (.ok elems, rest) => (next elems).onReader room rest
      | (.err fault, rest) => (.err (.io fault), rest)
      | (.panic, rest) => (.panic, rest)
      | (.diverge, rest) => (.diverge, rest)

/-- The program asks for more than the list holds. -/
def Asks : Reading β ε α → List β → Prop
  | done _, _ => False
  | fetch count next, stream =>
      stream.length < count ∨ (next (stream.take count)).Asks (stream.drop count)

lemma onStream_bind (p : Reading β ε α) (f : α → Reading β ε γ) (stream : List β) :
    (p >>= f).onStream stream =
      ((p.onStream : Act (List β) ε α) >>= fun a => ((f a).onStream : Act (List β) ε γ))
        stream := by
  induction p generalizing stream with
  | done out => cases out <;> rfl
  | fetch count next ih => exact ih (stream.take count) (stream.drop count)

lemma onStream_bind_of {p : Reading β ε α} {f : α → Reading β ε γ} {m : Act (List β) ε α}
    {g : α → Act (List β) ε γ} (hp : p.onStream = m) (hf : ∀ a, (f a).onStream = g a) :
    (p >>= f).onStream = m >>= g := by
  funext stream
  rw [onStream_bind, hp, funext hf]

lemma onStream_readExact (count : ℕ) (eof : ε) (stream : List β) :
    (readExact count eof).onStream stream =
      if count ≤ stream.length then (.ok (stream.take count), stream.drop count)
      else (.err eof, []) := by
  rw [readExact, onStream, onStream, List.length_take]
  by_cases h : count ≤ stream.length
  · rw [if_pos (Nat.min_eq_left h), if_pos h]
  · rw [if_neg (by omega), if_neg h, List.drop_of_length_le (by omega)]

/-- A program that asks for more than a list holds fails on the list. -/
def Strict (p : Reading β ε α) : Prop :=
  ∀ stream, p.Asks stream → ∃ e, (p.onStream stream).1 = .err e

lemma strict_done (out : Outcome ε α) : (done out : Reading β ε α).Strict :=
  fun _ h => h.elim

lemma strict_fetch {count : ℕ} {next : List β → Reading β ε α}
    (hshort : ∀ elems, elems.length < count → ∃ e, next elems = done (.err e))
    (hnext : ∀ elems, (next elems).Strict) : (fetch count next).Strict := by
  rintro stream (hlt | h)
  · obtain ⟨e, he⟩ := hshort (stream.take count) (by
      rw [List.length_take]
      omega)
    exact ⟨e, by rw [onStream, he]; rfl⟩
  · exact hnext _ _ h

lemma done_bind_done (out : Outcome ε α) (f : α → Outcome ε γ) :
    (done out >>= fun a => done (f a) : Reading β ε γ) = done (out >>= f) := by
  cases out <;> rfl

lemma readExact_bind (count : ℕ) (eof : ε) (f : List β → Reading β ε α) :
    readExact count eof >>= f =
      fetch count fun elems => if elems.length = count then f elems else done (.err eof) := by
  refine congrArg (fetch count) (funext fun elems => ?_)
  dsimp only
  split <;> rfl

lemma asks_readExact_bind {count : ℕ} {eof : ε} {f : List β → Reading β ε α} {stream : List β}
    (h : stream.length < count) : (readExact count eof >>= f).Asks stream := .inl h

lemma strict_readToEnd_bind {count : ℕ} {f : List β → Reading β ε α}
    (hshort : ∀ elems, elems.length < count → ∃ e, f elems = done (.err e))
    (hf : ∀ elems, (f elems).Strict) : (readToEnd count >>= f).Strict :=
  strict_fetch hshort hf

lemma strict_readExact_bind {count : ℕ} {eof : ε} {f : List β → Reading β ε α}
    (hf : ∀ elems, elems.length = count → (f elems).Strict) :
    (readExact count eof >>= f).Strict := by
  rw [readExact_bind]
  refine strict_fetch (fun elems h => ⟨eof, if_neg (Nat.ne_of_lt h)⟩) fun elems => ?_
  split
  · next h => exact hf elems h
  · exact strict_done _

lemma strict_done_bind {out : Outcome ε α} {f : α → Reading β ε γ} (hf : ∀ a, (f a).Strict) :
    (done out >>= f).Strict := by
  cases out with
  | ok a => exact hf a
  | err e => exact strict_done _
  | panic => exact strict_done _
  | diverge => exact strict_done _

/-! ### On a reader as on its elements -/

section

variable (room : Reader φ β → ℕ)

/-- A program that does not ask for more than there is, or meets no failure there, does on a reader
what it does on the elements. -/
lemma onReader_of_stays (p : Reading β ε α) (reader : Reader φ β)
    (h : ¬ p.Asks reader.contents ∨ reader.fault = none) :
    ∃ rest, p.onReader room reader = ((p.onStream reader.contents).1.mapErr .error, rest) ∧
      rest.contents = (p.onStream reader.contents).2 ∧ rest.fault = reader.fault := by
  induction p generalizing reader with
  | done out => exact ⟨reader, rfl, rfl, rfl⟩
  | fetch count next ih =>
      rw [onReader]
      have hfetch := reader.fetch_spec room count
      generalize reader.fetch room count = result at hfetch
      cases hfetch with
      | @given rest henough hcontents hfault =>
          obtain ⟨last, hrun, hlast, hfault'⟩ := ih (reader.contents.take count) rest (by
            rw [hcontents, hfault]
            exact h.imp (fun hasks hnext => hasks (.inr hnext)) id)
          rw [hcontents] at hrun hlast
          exact ⟨last, hrun, hlast, hfault'.trans hfault⟩
      | failed hshort hfault =>
          rcases h with hasks | hnone
          · exact absurd (.inl hshort) hasks
          · rw [hnone] at hfault
            cases hfault

/-- A program that asks for more than there is in front of a failure comes back with the
failure. -/
lemma onReader_of_asks (p : Reading β ε α) (reader : Reader φ β) {fault : φ}
    (h : p.Asks reader.contents) (hfault : reader.fault = some fault) :
    (p.onReader room reader).1 = .err (.io fault) := by
  induction p generalizing reader with
  | done out => exact h.elim
  | fetch count next ih =>
      rw [onReader]
      have hfetch := reader.fetch_spec room count
      generalize reader.fetch room count = result at hfetch
      cases hfetch with
      | @given rest henough hcontents hfault' =>
          have henough : count ≤ reader.contents.length :=
            henough.resolve_right fun hnone => by
              rw [hnone] at hfault
              cases hfault
          have hnext := h.resolve_left (Nat.not_lt.mpr henough)
          rw [← hcontents] at hnext
          exact ih _ rest hnext (hfault'.trans hfault)
      | failed hshort hfault' =>
          rw [Option.some.inj (hfault'.symm.trans hfault)]

end

/-- What is read exactly is the front of the reader. -/
lemma onReader_readExact_bind (room : Reader φ β → ℕ) {count : ℕ} {eof : ε}
    {f : List β → Reading β ε α} {reader : Reader φ β} (h : count ≤ reader.contents.length) :
    ∃ rest, (readExact count eof >>= f).onReader room reader =
        (f (reader.contents.take count)).onReader room rest ∧
      rest.contents = reader.contents.drop count ∧ rest.fault = reader.fault := by
  rw [readExact_bind, onReader]
  have hfetch := reader.fetch_spec room count
  generalize reader.fetch room count = result at hfetch
  cases hfetch with
  | @given rest henough hcontents hfault =>
      refine ⟨rest, ?_, hcontents, hfault⟩
      dsimp only
      rw [List.length_take, Nat.min_eq_left h, if_pos rfl]
  | failed hshort hfault => exact absurd h (Nat.not_le.mpr hshort)

/-! ### Frames -/

/-- The program takes the frame off any stream that begins with it, and comes back with `out`. -/
def Delimits (p : Reading β ε α) (frame : List β) (out : Outcome ε α) : Prop :=
  ∀ rest, p.onStream (frame ++ rest) = (out, rest)

/-- A program leaves a part of the stream. -/
lemma length_onStream_le (p : Reading β ε α) (stream : List β) :
    (p.onStream stream).2.length ≤ stream.length := by
  induction p generalizing stream with
  | done out => exact Nat.le_refl _
  | fetch count next ih =>
      have hnext := ih (stream.take count) (stream.drop count)
      rw [List.length_drop] at hnext
      exact Nat.le_trans hnext (Nat.sub_le _ _)

/-- What a program does without asking for more, it does on every longer stream. -/
lemma onStream_append {p : Reading β ε α} {stream : List β} (h : ¬ p.Asks stream)
    (rest : List β) : ¬ p.Asks (stream ++ rest) ∧
      p.onStream (stream ++ rest) =
        ((p.onStream stream).1, (p.onStream stream).2 ++ rest) := by
  induction p generalizing stream with
  | done out => exact ⟨id, rfl⟩
  | fetch count next ih =>
      have hcount : count ≤ stream.length := Nat.not_lt.mp fun hlt => h (.inl hlt)
      obtain ⟨hasks, hrun⟩ := ih (stream.take count) fun hnext => h (.inr hnext)
      have htake : (stream ++ rest).take count = stream.take count :=
        List.take_append_of_le_length hcount
      have hdrop : (stream ++ rest).drop count = stream.drop count ++ rest :=
        List.drop_append_of_le_length hcount
      constructor
      · rw [Asks, htake, hdrop, List.length_append]
        exact not_or.mpr ⟨by omega, hasks⟩
      · rw [onStream, htake, hdrop, hrun]
        rfl

/-- A program that asks for more takes something of what comes behind. -/
lemma exists_of_asks [Inhabited β] {p : Reading β ε α} {stream : List β} (h : p.Asks stream) :
    ∃ rest, (p.onStream (stream ++ rest)).2.length < rest.length := by
  induction p generalizing stream with
  | done out => exact h.elim
  | fetch count next ih =>
      rcases Nat.lt_or_ge stream.length count with hlt | hge
      · refine ⟨List.replicate count default, ?_⟩
        have hle := length_onStream_le (next ((stream ++ List.replicate count default).take count))
          ((stream ++ List.replicate count default).drop count)
        rw [List.length_drop, List.length_append, List.length_replicate] at hle
        rw [List.length_replicate, onStream]
        omega
      · obtain ⟨rest, hrest⟩ := ih (stream.take count) (h.resolve_left (Nat.not_lt.mpr hge))
        refine ⟨rest, ?_⟩
        rwa [onStream, List.take_append_of_le_length hge, List.drop_append_of_le_length hge]

/-- A frame is all that is asked for. -/
lemma Delimits.not_asks [Inhabited β] {p : Reading β ε α} {frame : List β} {out : Outcome ε α}
    (h : p.Delimits frame out) : ¬ p.Asks frame := by
  intro hasks
  obtain ⟨rest, hrest⟩ := exists_of_asks hasks
  rw [h rest] at hrest
  exact Nat.lt_irrefl _ hrest

/-- A frame that is cut short is not enough. -/
lemma Delimits.asks_of_cut {p : Reading β ε α} {frame cut lost : List β} {out : Outcome ε α}
    (h : p.Delimits frame out) (hcut : cut ++ lost = frame) (hlost : lost ≠ []) : p.Asks cut := by
  by_contra hasks
  obtain ⟨-, hrun⟩ := onStream_append hasks lost
  have hframe := h []
  rw [List.append_nil, ← hcut, hrun, Prod.mk.injEq] at hframe
  exact hlost (List.append_eq_nil_iff.mp hframe.2).2

/-! ### A connection that breaks off -/

section

variable {ξ κ : Type} (frame : ξ → List β)

/-- The frames that are there when `count` elements have come. -/
def arrived : List ξ → ℕ → List ξ
  | [], _ => []
  | x :: xs, count =>
      if (frame x).length ≤ count then x :: arrived xs (count - (frame x).length) else []

variable {frame} (room : Reader φ β → ℕ) (p : κ → Reading β ε α)

/-- A call, as a step of the reader. -/
def step (c : κ) (reader : Reader φ β) : Outcome (ReadError φ ε) α × Reader φ β :=
  (p c).onReader room reader

variable {room p}

/-- The answer of a call that asks for more than there is: the failure there, or else an error of
the program. -/
def BrokenOff (fault : Option φ) (answer : Outcome (ReadError φ ε) α) : Prop :=
  match fault with
  | some fault => answer = .err (.io fault)
  | none => ∃ e, answer = .err (.error e)

lemma brokenOff_of_asks {c : κ} (hstrict : (p c).Strict) {reader : Reader φ β}
    (h : (p c).Asks reader.contents) : BrokenOff reader.fault (step room p c reader).1 := by
  rcases hfault : reader.fault with _ | fault
  · obtain ⟨rest, hrun, -⟩ := onReader_of_stays room (p c) reader (.inr hfault)
    obtain ⟨e, he⟩ := hstrict _ h
    exact ⟨e, by rw [step, hrun, he]; rfl⟩
  · exact onReader_of_asks room (p c) reader h hfault

variable [Inhabited β] {out : κ → ξ → Outcome ε α}

/-- Of the frames of `xs` the front has come, `lost` has not.  The calls for the frames that are
there are answered from them, and the next call fails. -/
lemma run_arrived (hasks : ∀ c, (p c).Asks []) (hstrict : ∀ c, (p c).Strict) (xs : List ξ)
    (hframe : ∀ x ∈ xs, ∀ c, (p c).Delimits (frame x) (out c x)) (reader : Reader φ β)
    (lost : List β) (hreader : reader.contents ++ lost = xs.flatMap frame) (calls : List κ)
    (hcalls : calls.length = (arrived frame xs reader.contents.length).length) :
    ∃ rest, run (step room p) calls reader =
        (List.zipWith (fun c x => (out c x).mapErr .error) calls
          (arrived frame xs reader.contents.length), rest) ∧
      ∀ c, BrokenOff reader.fault (step room p c rest).1 := by
  induction xs generalizing reader calls with
  | nil =>
      obtain rfl := List.length_eq_zero_iff.mp hcalls
      rw [List.flatMap_nil, List.append_eq_nil_iff] at hreader
      exact ⟨reader, rfl, fun c => brokenOff_of_asks (hstrict c) (hreader.1 ▸ hasks c)⟩
  | cons x xs ih =>
      obtain ⟨hfirst, hothers⟩ := List.forall_mem_cons.mp hframe
      rw [List.flatMap_cons] at hreader
      rw [arrived] at hcalls ⊢
      split at hcalls
      · next hle =>
          obtain ⟨behind, hbehind⟩ : ∃ behind, reader.contents = frame x ++ behind := by
            refine ⟨reader.contents.drop (frame x).length, ?_⟩
            have htake := congrArg (List.take (frame x).length) hreader
            rw [List.take_append_of_le_length hle, List.take_left] at htake
            have hsplit := List.take_append_drop (frame x).length reader.contents
            rw [htake] at hsplit
            exact hsplit.symm
          cases calls with
          | nil => cases hcalls
          | cons c calls =>
              obtain ⟨next, hrun, hnext, hfault⟩ := onReader_of_stays room (p c) reader (.inl (by
                rw [hbehind]
                exact (onStream_append (hfirst c).not_asks behind).1))
              rw [hbehind, hfirst c behind] at hrun hnext
              have hlength : reader.contents.length - (frame x).length = next.contents.length := by
                rw [hbehind, hnext, List.length_append, Nat.add_sub_cancel_left]
              rw [hbehind, List.append_assoc, List.append_cancel_left_eq] at hreader
              rw [hlength] at hcalls
              obtain ⟨rest, hrest, hmore⟩ := ih hothers next (hnext ▸ hreader) calls
                (Nat.succ.inj hcalls)
              refine ⟨rest, ?_, hfault ▸ hmore⟩
              have hstep : step room p c reader = ((out c x).mapErr .error, next) := hrun
              rw [if_pos hle, hlength, List.zipWith_cons_cons, run_cons_of hstep, hrest]
      · next hlt =>
          obtain rfl := List.length_eq_zero_iff.mp hcalls
          refine ⟨reader, by rw [if_neg hlt]; rfl, fun c => brokenOff_of_asks (hstrict c) ?_⟩
          obtain ⟨missing, hmissing⟩ : ∃ missing, reader.contents ++ missing = frame x := by
            refine ⟨(frame x).drop reader.contents.length, ?_⟩
            have htake := congrArg (List.take reader.contents.length) hreader
            rw [List.take_left, List.take_append_of_le_length (by omega)] at htake
            rw [htake, List.length_take, Nat.min_eq_left (by omega), List.take_append_drop]
          refine (hfirst c).asks_of_cut hmissing fun hnone => hlt ?_
          have hwhole : frame x = reader.contents := by
            rw [← hmissing, hnone, List.append_nil]
          exact Nat.le_of_eq (congrArg List.length hwhole)

/-- The calls of one program. -/
lemma run_arrived_same {q : Reading β ε α} {out : ξ → Outcome ε α} (hasks : q.Asks [])
    (hstrict : q.Strict) {xs : List ξ} (hframe : ∀ x ∈ xs, q.Delimits (frame x) (out x))
    (room : Reader φ β → ℕ) {reader : Reader φ β} {lost : List β}
    (hreader : reader.contents ++ lost = xs.flatMap frame) :
    ∃ rest, run (step room fun _ : Unit => q)
        (List.replicate (arrived frame xs reader.contents.length).length ()) reader =
        ((arrived frame xs reader.contents.length).map fun x => (out x).mapErr .error, rest) ∧
      BrokenOff reader.fault (q.onReader room rest).1 := by
  have harrived : ∃ rest, run (step room fun _ : Unit => q)
      (List.replicate (arrived frame xs reader.contents.length).length ()) reader =
        (List.zipWith (fun _ x => (out x).mapErr .error)
          (List.replicate (arrived frame xs reader.contents.length).length ())
          (arrived frame xs reader.contents.length), rest) ∧
      ∀ c, BrokenOff reader.fault (step room (fun _ : Unit => q) c rest).1 :=
    run_arrived (fun _ => hasks) (fun _ => hstrict) xs (fun x hx _ => hframe x hx) reader lost
      hreader _ List.length_replicate
  obtain ⟨rest, hrun, hnext⟩ := harrived
  refine ⟨rest, hrun.trans ?_, hnext ()⟩
  have hmap : ∀ ys : List ξ, List.zipWith (fun _ x => (out x).mapErr (ReadError.error (φ := φ)))
      (List.replicate ys.length ()) ys = ys.map fun x => (out x).mapErr .error := by
    intro ys
    induction ys with
    | nil => rfl
    | cons y ys ih =>
        rw [List.length_cons, List.replicate_succ, List.zipWith_cons_cons, ih, List.map_cons]
  rw [hmap]

end

end Reading

end Lib
