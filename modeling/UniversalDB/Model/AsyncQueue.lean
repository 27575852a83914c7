import UniversalDB.Library.TransitionSystem
import UniversalDB.Model.TimerAsyncScheduler

/-! # `AsyncQueue`

`τ` is the type of the tasks. What a task does on a run is not known to the queue: it may
add tasks, and it returns a number. -/

namespace UniversalDB

/-- The only job that a queue schedules. -/
inductive RunTask where
  | runTask
deriving DecidableEq, Repr

structure AsyncQueue (τ : Type) where
  callbacks : List τ
  timerScheduler : TimerAsyncScheduler RunTask

namespace AsyncQueue

variable {τ : Type}

def TERMINATE : ℤ := -1

def new : AsyncQueue τ := ⟨[], .empty⟩

def addTask (q : AsyncQueue τ) (callback : τ) : AsyncQueue τ :=
  let q' : AsyncQueue τ := { q with callbacks := q.callbacks ++ [callback] }
  if q'.callbacks.length = 1 then
    { q' with timerScheduler := q'.timerScheduler.scheduleOnce .runTask 0 }
  else q'

/-- What a task does on one run. -/
structure Outcome (τ : Type) where
  added : List τ
  wait : ℤ
deriving DecidableEq, Repr

/-- `frontOfEmpty` is the call of `front()` on an empty queue, which has no defined
result. -/
inductive Event (τ : Type) where
  | added (callback : τ)
  | started (callback : τ)
  | returned (callback : τ) (wait : ℤ)
  | frontOfEmpty
deriving DecidableEq, Repr

/-- The task is still in front when it adds other tasks. -/
def runTask (q : AsyncQueue τ) (outcome : Outcome τ) : List (Event τ) × AsyncQueue τ :=
  match q.callbacks with
  | [] => ([.frontOfEmpty], q)
  | callback :: _ =>
      let q' := outcome.added.foldl addTask q
      let events :=
        .started callback :: outcome.added.map .added ++ [.returned callback outcome.wait]
      if outcome.wait = TERMINATE then
        let q'' : AsyncQueue τ := { q' with callbacks := q'.callbacks.tail }
        if q''.callbacks.length > 0 then
          (events, { q'' with timerScheduler := q''.timerScheduler.scheduleOnce .runTask 0 })
        else
          (events, q'')
      else
        (events,
          { q' with timerScheduler := q'.timerScheduler.scheduleOnce .runTask outcome.wait })

def isEmpty (q : AsyncQueue τ) : Bool := q.callbacks.isEmpty

/-! ## The queue and its timers -/

/-- A task is added from outside, or the job at position `n` is run. -/
inductive Action (τ : Type) where
  | addTask (callback : τ)
  | fire (n : ℕ) (outcome : Outcome τ)

def next (q : AsyncQueue τ) : Action τ → Option (List (Event τ) × AsyncQueue τ)
  | .addTask callback => some ([.added callback], q.addTask callback)
  | .fire n outcome =>
      match q.timerScheduler.fire n with
      | none => none
      | some (.runTask, timerScheduler) =>
          some (runTask { q with timerScheduler := timerScheduler } outcome)

def machine (τ : Type) : Machine (AsyncQueue τ) (Action τ) (Event τ) where
  init := new
  next := next

end AsyncQueue

end UniversalDB
