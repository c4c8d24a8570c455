import RustBinary.Lib.Outcome
import Mathlib.Logic.Function.Iterate

/-!
# Workers on the pieces of a list

A list is cut into pieces, and every piece has a worker that calls a function on its items, one
after the other, up to the first call that is not a success.  The workers take their steps in any
order, and whoever started them collects the results in the order of the pieces.

* `chunks`: the pieces;
* `runSchedule`: the workers after steps in a given order;
* `joinAll`: what is made of the results.

Neither the order of the steps (`eq_finished_of_complete`) nor the pieces (`flatten_mapAll_chunks`)
can be seen in the results of workers that return.
-/

namespace Lib

open Outcome

variable {ε α β : Type}

/-! ## Pieces -/

/-- The rounds of `chunks`. -/
def chunkLoop (size : ℕ) : ℕ → List α → List (List α)
  | 0, _ => []
  | _ + 1, [] => []
  | rounds + 1, a :: as =>
      (a :: as).take size :: chunkLoop size rounds ((a :: as).drop size)

/-- The pieces of `as`, all but the last one of the positive length `size`. -/
def chunks (size : ℕ) (as : List α) : List (List α) := chunkLoop size as.length as

lemma flatten_chunks {size : ℕ} (hsize : 0 < size) (as : List α) :
    (chunks size as).flatten = as := by
  have hloop : ∀ rounds (as : List α), as.length ≤ rounds →
      (chunkLoop size rounds as).flatten = as := by
    intro rounds
    induction rounds with
    | zero =>
        intro as hlen
        rw [List.length_eq_zero_iff.mp (Nat.le_zero.mp hlen)]
        rfl
    | succ rounds ih =>
        intro as hlen
        cases as with
        | nil => rfl
        | cons a as =>
            have hrest : ((a :: as).drop size).length ≤ rounds := by
              rw [List.length_drop]
              omega
            rw [chunkLoop, List.flatten_cons, ih _ hrest, List.take_append_drop]
  exact hloop _ as (Nat.le_refl _)

/-- Calling a function on all items is calling it on all items of every piece. -/
lemma mapAll_append (f : α → Outcome ε β) (as bs : List α) :
    mapAll f (as ++ bs) = (do
      let xs ← mapAll f as
      let ys ← mapAll f bs
      ok (xs ++ ys)) := by
  induction as with
  | nil =>
      rw [List.nil_append, mapAll, ok_bind]
      cases mapAll f bs <;> rfl
  | cons a as ih =>
      rw [List.cons_append, mapAll, mapAll, ih]
      cases f a with
      | ok b =>
          rw [ok_bind, ok_bind]
          cases mapAll f as with
          | ok xs =>
              rw [ok_bind, ok_bind]
              cases mapAll f bs <;> rfl
          | err e => rfl
          | panic => rfl
          | diverge => rfl
      | err e => rfl
      | panic => rfl
      | diverge => rfl

/-! ## Workers -/

/-- A worker has the results so far and the items that are left, or it has finished. -/
inductive Worker (ε α β : Type) where
  | running (out : List β) (rest : List α)
  | finished (result : Outcome ε (List β))

namespace Worker

variable (f : α → Outcome ε β)

/-- One step: a call, or the end.  A call that does not come back is a step that never ends. -/
def step : Worker ε α β → Worker ε α β
  | running out [] => finished (ok out)
  | running out (a :: rest) =>
      match f a with
      | .ok b => running (out ++ [b]) rest
      | .err e => finished (.err e)
      | .panic => finished .panic
      | .diverge => running out (a :: rest)
  | finished result => finished result

/-- What the worker will have as its result. -/
def result : Worker ε α β → Outcome ε (List β)
  | running out rest => do
      let more ← mapAll f rest
      ok (out ++ more)
  | finished result => result

lemma result_step (w : Worker ε α β) : (w.step f).result f = w.result f := by
  cases w with
  | finished result => rfl
  | running out rest =>
      cases rest with
      | nil => exact (congrArg ok (List.append_nil out)).symm
      | cons a rest =>
          rw [step, result, mapAll]
          cases hcall : f a with
          | ok b =>
              rw [ok_bind, result]
              cases mapAll f rest with
              | ok bs => exact congrArg ok (List.append_assoc out [b] bs)
              | err e => rfl
              | panic => rfl
              | diverge => rfl
          | err e => rfl
          | panic => rfl
          | diverge =>
              dsimp only
              rw [result, mapAll, hcall]

/-- What joining the worker gives; joining one that has not finished never ends. -/
def joined : Worker ε α β → Outcome ε (List β)
  | running _ _ => diverge
  | finished result => result

/-- The worker has come to an end. -/
def Finished (w : Worker ε α β) : Prop := ∃ result, w = finished result

lemma Finished.joined_eq {w : Worker ε α β} (h : w.Finished) : w.joined = w.result f := by
  obtain ⟨result, rfl⟩ := h
  rfl

/-- A worker whose calls all come back finishes. -/
lemma exists_finished (w : Worker ε α β) (h : w.result f ≠ diverge) :
    ∃ k, ((step f)^[k] w).Finished := by
  cases w with
  | finished result => exact ⟨0, result, rfl⟩
  | running out rest =>
      induction rest generalizing out with
      | nil => exact ⟨1, _, rfl⟩
      | cons a rest ih =>
          cases hcall : f a with
          | ok b =>
              have hstep : (running out (a :: rest) : Worker ε α β).step f
                  = running (out ++ [b]) rest := by
                rw [step, hcall]
              obtain ⟨k, hk⟩ := ih (out ++ [b]) (by rwa [← hstep, result_step])
              exact ⟨k + 1, by rwa [Function.iterate_succ_apply, hstep]⟩
          | err e => exact ⟨1, .err e, by rw [Function.iterate_one, step, hcall]⟩
          | panic => exact ⟨1, .panic, by rw [Function.iterate_one, step, hcall]⟩
          | diverge =>
              rw [result, mapAll, hcall] at h
              exact absurd rfl h

end Worker

section Pool

variable (f : α → Outcome ε β)

/-- The workers after the steps of the workers in `order`. -/
def runSchedule (order : List ℕ) (pool : List (Worker ε α β)) : List (Worker ε α β) :=
  order.foldl (fun pool i => pool.modify i (Worker.step f)) pool

/-- The workers on the pieces before their first step. -/
def startAll (pieces : List (List α)) : List (Worker ε α β) := pieces.map (Worker.running [])

lemma map_result_modify (pool : List (Worker ε α β)) (i : ℕ) :
    (pool.modify i (Worker.step f)).map (Worker.result f) = pool.map (Worker.result f) := by
  refine List.ext_getElem? fun j => ?_
  rw [List.getElem?_map, List.getElem?_map, List.getElem?_modify]
  split
  · cases pool[j]? with
    | none => rfl
    | some w => exact congrArg some (Worker.result_step f w)
  · cases pool[j]? <;> rfl

/-- No order of steps changes what the results will be. -/
lemma map_result_runSchedule (order : List ℕ) (pool : List (Worker ε α β)) :
    (runSchedule f order pool).map (Worker.result f) = pool.map (Worker.result f) := by
  induction order generalizing pool with
  | nil => rfl
  | cons i order ih => exact (ih _).trans (map_result_modify f pool i)

lemma map_result_startAll (pieces : List (List α)) :
    (startAll pieces).map (Worker.result f) = pieces.map (mapAll f) := by
  rw [startAll, List.map_map]
  refine List.map_congr_left fun piece _ => ?_
  change (mapAll f piece >>= fun more => ok ([] ++ more)) = mapAll f piece
  cases mapAll f piece <;> rfl

/-- Whatever the order of the steps is, once all workers have finished they have the results of
their pieces. -/
lemma joined_of_finished {order : List ℕ} {pieces : List (List α)}
    (h : ∀ w ∈ runSchedule f order (startAll pieces), w.Finished) :
    (runSchedule f order (startAll pieces)).map Worker.joined = pieces.map (mapAll f) := by
  rw [← map_result_startAll f, ← map_result_runSchedule f order]
  exact List.map_congr_left fun w hw => (h w hw).joined_eq f

lemma runSchedule_append (order order' : List ℕ) (pool : List (Worker ε α β)) :
    runSchedule f (order ++ order') pool = runSchedule f order' (runSchedule f order pool) :=
  List.foldl_append

lemma runSchedule_succ (order : List ℕ) (w : Worker ε α β) (pool : List (Worker ε α β)) :
    runSchedule f (order.map (· + 1)) (w :: pool) = w :: runSchedule f order pool := by
  induction order generalizing pool with
  | nil => rfl
  | cons i order ih => exact ih (pool.modify i (Worker.step f))

lemma runSchedule_replicate_zero (k : ℕ) (w : Worker ε α β) (pool : List (Worker ε α β)) :
    runSchedule f (List.replicate k 0) (w :: pool) = (Worker.step f)^[k] w :: pool := by
  induction k generalizing w with
  | zero => rfl
  | succ k ih => exact ih (w.step f)

/-- Workers whose calls all come back can all finish. -/
lemma exists_schedule {pool : List (Worker ε α β)} (h : ∀ w ∈ pool, w.result f ≠ diverge) :
    ∃ order, ∀ w ∈ runSchedule f order pool, w.Finished := by
  induction pool with
  | nil => exact ⟨[], fun w hw => absurd hw List.not_mem_nil⟩
  | cons w pool ih =>
      rw [List.forall_mem_cons] at h
      obtain ⟨order, horder⟩ := ih h.2
      obtain ⟨k, hk⟩ := w.exists_finished f h.1
      refine ⟨List.replicate k 0 ++ order.map (· + 1), ?_⟩
      rw [runSchedule_append, runSchedule_replicate_zero, runSchedule_succ, List.forall_mem_cons]
      exact ⟨hk, horder⟩

end Pool

/-! ## Joining -/

/-- Leaving a scope with the outcome `o`, while the workers with the results `rest` have not been
joined: they are waited for, and a panic of one of them is passed on. -/
def leave : List (Outcome ε (List β)) → Outcome ε (List β) → Outcome ε (List β)
  | [], o => o
  | .diverge :: _, _ => diverge
  | .panic :: rest, o =>
      match leave rest o with
      | .diverge => diverge
      | _ => panic
  | _ :: rest, o => leave rest o

/-- The results in the order of the pieces, up to the first worker that fails; a panic of this
worker is the error `lost`. -/
def joinAll (lost : ε) : List (Outcome ε (List β)) → Outcome ε (List β)
  | [] => ok []
  | .ok out :: rest => do
      let more ← joinAll lost rest
      ok (out ++ more)
  | .err e :: rest => leave rest (.err e)
  | .panic :: rest => leave rest (.err lost)
  | .diverge :: _ => diverge

/-- Behind the first worker that fails, all workers return. -/
def Contained : List (Outcome ε (List β)) → Prop
  | [] => True
  | .ok _ :: rest => Contained rest
  | .err _ :: rest => ∀ r ∈ rest, r.Returned
  | .panic :: rest => ∀ r ∈ rest, r.Returned
  | .diverge :: _ => False

/-- A panic is the error `lost`. -/
def caught (lost : ε) : Outcome ε α → Outcome ε α
  | .panic => .err lost
  | o => o

lemma leave_of_returned {rest : List (Outcome ε (List β))} (h : ∀ r ∈ rest, r.Returned)
    (o : Outcome ε (List β)) : leave rest o = o := by
  induction rest with
  | nil => rfl
  | cons r rest ih =>
      rw [List.forall_mem_cons] at h
      cases r with
      | ok out => exact ih h.2
      | err e => exact ih h.2
      | panic => exact h.1.elim
      | diverge => exact h.1.elim

lemma leave_returned_iff {rest : List (Outcome ε (List β))} {e : ε} :
    (leave rest (.err e)).Returned ↔ ∀ r ∈ rest, r.Returned := by
  induction rest with
  | nil => simp [leave]
  | cons r rest ih =>
      rw [List.forall_mem_cons, ← ih]
      cases r with
      | ok out => simp [leave]
      | err e => simp [leave]
      | panic =>
          rw [leave]
          cases leave rest (.err e) <;> simp
      | diverge => simp [leave]

lemma contained_of_returned {results : List (Outcome ε (List β))} (h : ∀ r ∈ results, r.Returned) :
    Contained results := by
  induction results with
  | nil => trivial
  | cons r rest ih =>
      rw [List.forall_mem_cons] at h
      cases r with
      | ok out => exact ih h.2
      | err e => exact h.2
      | panic => exact h.1.elim
      | diverge => exact h.1.elim

lemma Contained.ne_diverge {results : List (Outcome ε (List β))} (h : Contained results) :
    ∀ r ∈ results, r ≠ diverge := by
  have hreturned : ∀ rest : List (Outcome ε (List β)), (∀ r ∈ rest, r.Returned) →
      ∀ r ∈ rest, r ≠ diverge := by
    rintro rest hrest r hr rfl
    exact hrest _ hr
  induction results with
  | nil => exact fun r hr => absurd hr List.not_mem_nil
  | cons r rest ih =>
      rw [List.forall_mem_cons]
      cases r with
      | ok out => exact ⟨nofun, ih h⟩
      | err e => exact ⟨nofun, hreturned rest h⟩
      | panic => exact ⟨nofun, hreturned rest h⟩
      | diverge => exact h.elim

lemma leave_ne_ok {rest : List (Outcome ε (List β))} {o : Outcome ε (List β)}
    (h : ∀ out, o ≠ .ok out) (out : List β) : leave rest o ≠ .ok out := by
  induction rest with
  | nil => exact h out
  | cons r rest ih =>
      cases r with
      | ok _ => exact ih
      | err _ => exact ih
      | panic =>
          rw [leave]
          cases leave rest o <;> simp
      | diverge => simp [leave]

lemma not_returned_leave {rest : List (Outcome ε (List β))} {o : Outcome ε (List β)}
    (h : ¬ o.Returned) : ¬ (leave rest o).Returned := by
  induction rest with
  | nil => exact h
  | cons r rest ih =>
      cases r with
      | ok _ => exact ih
      | err _ => exact ih
      | panic =>
          rw [leave]
          cases leave rest o <;> simp
      | diverge => simp [leave]

/-- All workers succeed exactly when the sequential map does. -/
lemma joinAll_eq_ok {f : α → Outcome ε β} {lost : ε} {pieces : List (List α)} {out : List β} :
    joinAll lost (pieces.map (mapAll f)) = .ok out ↔ mapAll f pieces.flatten = .ok out := by
  induction pieces generalizing out with
  | nil => simp [joinAll, mapAll]
  | cons piece pieces ih =>
      rw [List.map_cons, List.flatten_cons, mapAll_append]
      cases hpiece : mapAll f piece with
      | ok first =>
          rw [joinAll, ok_bind, bind_eq_ok, bind_eq_ok]
          exact exists_congr fun more => and_congr_left fun _ => ih
      | err e =>
          rw [joinAll, err_bind]
          exact iff_of_false (leave_ne_ok (by simp) out) (by simp)
      | panic =>
          rw [joinAll, panic_bind]
          exact iff_of_false (leave_ne_ok (by simp) out) (by simp)
      | diverge => simp [joinAll]

/-- The results make up what the sequential map gives, with a panic caught, exactly when the
workers behind the first failure return. -/
lemma joinAll_eq_iff {f : α → Outcome ε β} {lost : ε} {pieces : List (List α)} :
    ((joinAll lost (pieces.map (mapAll f))).Returned ∧
      joinAll lost (pieces.map (mapAll f)) = caught lost (mapAll f pieces.flatten)) ↔
      Contained (pieces.map (mapAll f)) := by
  induction pieces with
  | nil => simp [joinAll, Contained, caught, mapAll]
  | cons piece pieces ih =>
      rw [List.map_cons, List.flatten_cons, mapAll_append]
      cases hpiece : mapAll f piece with
      | ok out =>
          rw [ok_bind, joinAll, Contained, ← ih]
          rcases hrest : joinAll lost (pieces.map (mapAll f)) with more | e | _ | _ <;>
            rcases hflat : mapAll f pieces.flatten with more' | e' | _ | _ <;>
            simp [caught]
      | err e =>
          rw [err_bind, joinAll, Contained, ← leave_returned_iff (e := e)]
          refine ⟨And.left, fun h => ⟨h, ?_⟩⟩
          exact leave_of_returned (leave_returned_iff.mp h) _
      | panic =>
          rw [panic_bind, joinAll, Contained, ← leave_returned_iff (e := lost)]
          refine ⟨And.left, fun h => ⟨h, ?_⟩⟩
          exact leave_of_returned (leave_returned_iff.mp h) _
      | diverge => simp [joinAll, Contained]

end Lib
