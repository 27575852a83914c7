import Mathlib.Data.List.Basic
import Mathlib.Data.Int.Notation

/-! # `TimerAsyncScheduler`

`β` is the type of the callbacks. A job runs once, in the foreground thread and never
during the call that schedules it. Which of the jobs is the next one is left to the
clock, so any of them may be. -/

namespace UniversalDB

structure TimerAsyncScheduler (β : Type) where
  jobs : List (β × ℤ)

namespace TimerAsyncScheduler

variable {β : Type}

def empty : TimerAsyncScheduler β := ⟨[]⟩

def scheduleOnce (scheduler : TimerAsyncScheduler β) (callback : β) (wait : ℤ) :
    TimerAsyncScheduler β :=
  ⟨scheduler.jobs ++ [(callback, wait)]⟩

/-- The callback of the job at position `n`, which is no longer scheduled then. -/
def fire (scheduler : TimerAsyncScheduler β) (n : ℕ) : Option (β × TimerAsyncScheduler β) :=
  match scheduler.jobs[n]? with
  | none => none
  | some (callback, _) => some (callback, ⟨scheduler.jobs.eraseIdx n⟩)

end TimerAsyncScheduler

end UniversalDB
