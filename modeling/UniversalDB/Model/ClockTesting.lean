import Mathlib.Algebra.Ring.Int.Defs
import UniversalDB.Library.Agenda
import UniversalDB.Library.TransitionSystem
import UniversalDB.Model.Proto

/-! # `ClockTesting`

`σ` is what the callbacks of a test share, and `β` the type of the callbacks. They do not
call `increment_time`, and there is nothing by which they could see the time. -/

namespace UniversalDB

structure ClockTesting (β : Type) where
  time : ℤ
  scheduledCallbacks : OrderedMultimap ℤ β

namespace ClockTesting

open Agenda (Behaviour Event)

def INT_MAX : ℤ := 2 ^ 31 - 1

def LONG_MAX : ℤ := 2 ^ 63 - 1

/-- `overflow` is a sum that its signed type cannot hold, and `eraseOfEnd` is a call of
`erase` with the end of the map: neither has a defined result. -/
inductive Fault where
  | exception (exception : UniversalException)
  | overflow
  | eraseOfEnd
  | outOfFuel
deriving DecidableEq, Repr

variable {σ β : Type}

def new : ClockTesting β := ⟨0, .empty⟩

/-- The sum of two numbers that are not negative. -/
def add (max x y : ℤ) : Except Fault ℤ :=
  if x + y ≤ max then .ok (x + y) else .error .overflow

def scheduleAsync (clock : ClockTesting β) (callback : β) (wait : ℤ) :
    Except Fault (List (Event β) × ClockTesting β) := do
  (universalAssert (wait ≥ 0)
    "A clock can only wait on positive amount of time into the future.").mapError .exception
  let deadline ← add LONG_MAX clock.time wait
  return ([.scheduled (clock.scheduledCallbacks.newEntry deadline callback)],
    { clock with scheduledCallbacks := clock.scheduledCallbacks.insert deadline callback })

/-- The calls of `schedule_async` that a callback makes, one after the other. -/
def scheduleAll (clock : ClockTesting β) :
    List (β × ℤ) → Except Fault (List (Event β) × ClockTesting β)
  | [] => return ([], clock)
  | (callback, wait) :: calls => do
      let (events, clock') ← clock.scheduleAsync callback wait
      let (rest, clock'') ← clock'.scheduleAll calls
      return (events ++ rest, clock'')

/-- `_scheduled_callbacks.erase(_scheduled_callbacks.begin())`. -/
def eraseBegin (clock : ClockTesting β) : Except Fault (List (Event β) × ClockTesting β) :=
  match clock.scheduledCallbacks.entries with
  | [] => .error .eraseOfEnd
  | front :: _ =>
      return ([.erased front],
        { clock with scheduledCallbacks := clock.scheduledCallbacks.tail })

/-- A clock and what the callbacks share. -/
structure Simulation (σ β : Type) where
  world : σ
  clock : ClockTesting β

namespace Simulation

/-- What a call that returns leads to. -/
abbrev Outcome (σ β : Type) := List (Event β) × Simulation σ β

/-- The `while` loop. A callback runs while its entry is still in the map. -/
def runCallbacks (run : Behaviour σ β) :
    ℕ → Simulation σ β → Except Fault (Outcome σ β)
  | 0, _ => .error .outOfFuel
  | fuel + 1, s =>
      match s.clock.scheduledCallbacks.entries with
      | [] => return ([], s)
      | it :: _ =>
          if it.key ≤ s.clock.time then do
            let (world, calls) := run s.world it.value
            let (scheduled, clock) ← s.clock.scheduleAll calls
            let (erased, clock') ← clock.eraseBegin
            let (events, s') ← runCallbacks run fuel ⟨world, clock'⟩
            return (.ran s.clock.time it :: scheduled ++ erased ++ events, s')
          else return ([], s)

/-- The body of the `for` loop. -/
def millisecond (run : Behaviour σ β) (fuel : ℕ) (s : Simulation σ β) :
    Except Fault (Outcome σ β) := do
  let time ← add LONG_MAX s.clock.time 1
  runCallbacks run fuel { s with clock := { s.clock with time := time } }

/-- The `for` loop with `n` rounds to go. Its counter `i` is an `int`. -/
def incrementLoop (run : Behaviour σ β) (fuel : ℕ) :
    ℕ → ℤ → Simulation σ β → Except Fault (Outcome σ β)
  | 0, _, s => return ([], s)
  | n + 1, i, s => do
      let (events, s₁) ← s.millisecond run fuel
      let i' ← add INT_MAX i 1
      let (rest, s₂) ← incrementLoop run fuel n i' s₁
      return (events ++ rest, s₂)

/-- Every `while` loop is given the same fuel. -/
def incrementTime (run : Behaviour σ β) (fuel : ℕ) (s : Simulation σ β) (increment : ℤ) :
    Except Fault (Outcome σ β) :=
  incrementLoop run fuel increment.toNat 0 s

end Simulation

/-! ## The calls of a test -/

/-- Between its calls a test does what it likes to `world`. -/
inductive Action (σ β : Type) where
  | scheduleAsync (callback : β) (wait : ℤ)
  | incrementTime (increment : ℤ) (fuel : ℕ)
  | other (world : σ)

def Simulation.call (run : Behaviour σ β) (s : Simulation σ β) :
    Action σ β → Except Fault (Simulation.Outcome σ β)
  | .scheduleAsync callback wait => do
      let (events, clock) ← s.clock.scheduleAsync callback wait
      return (events, { s with clock := clock })
  | .incrementTime increment fuel => s.incrementTime run fuel increment
  | .other world => return ([], { s with world := world })

/-- A test goes on with calls that return. -/
def machine (run : Behaviour σ β) (world : σ) :
    Machine (Simulation σ β) (Action σ β) (Event β) where
  init := ⟨world, new⟩
  next s a := (s.call run a).toOption

end ClockTesting

/-! ## `TimerAsyncSchedulerTesting` -/

namespace TimerAsyncSchedulerTesting

open Agenda (Behaviour)

/-- The callbacks that go to the clock, `γ` being the type of those that come to the
scheduler. -/
inductive Job (γ : Type) where
  | once (callback : γ)
  | repeated (callback : γ) (period : ℤ)
  | repeatedFinite (callback : γ) (period : ℤ) (tries : ℤ)
deriving DecidableEq, Repr

variable {σ γ : Type}

/-! What is given to `schedule_async`. -/

def scheduleOnce (callback : γ) (wait : ℤ) : Job γ × ℤ := (.once callback, wait)

def scheduleRepeated (callback : γ) (period : ℤ) : Job γ × ℤ :=
  (.repeated callback period, period)

def scheduleRepeatedFinite (callback : γ) (period : ℤ) (tries : ℤ) : Job γ × ℤ :=
  (.repeatedFinite callback period tries, period)

/-- A job runs its callback and then schedules the next job. -/
def run (call : σ → γ → σ × List (Job γ × ℤ)) : Behaviour σ (Job γ)
  | world, .once callback => call world callback
  | world, .repeated callback period =>
      let (world', calls) := call world callback
      (world', calls ++ [scheduleRepeated callback period])
  | world, .repeatedFinite callback period tries =>
      let (world', calls) := call world callback
      (world',
        if tries > 1 then calls ++ [scheduleRepeatedFinite callback period (tries - 1)]
        else calls)

end TimerAsyncSchedulerTesting

end UniversalDB
