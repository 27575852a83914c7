import UniversalDB.Library.TransitionSystem

/-! # `AsyncSchedulerImpl`

`μ` is the type of the incoming messages, which the scheduler does not look into. The
locked section of `queue_message`, the start and the return of the callback in a job, and
the locked section of a job are the steps, in any interleaving. Which thread makes a step
plays no part: the callback may queue messages while it runs. -/

namespace UniversalDB

/-- The jobs that `boost::asio::post` was given stand under the messages they carry:
`posted` ones have not started, in `inCallback` ones the callback is running, and
`afterCallback` ones have yet to take the lock. -/
structure AsyncSchedulerImpl (μ : Type) where
  messageQueue : List μ
  posted : List μ
  inCallback : List μ
  afterCallback : List μ
deriving DecidableEq, Repr

namespace AsyncSchedulerImpl

variable {μ : Type}

def new : AsyncSchedulerImpl μ := ⟨[], [], [], []⟩

def scheduleAsync (s : AsyncSchedulerImpl μ) (message : μ) : AsyncSchedulerImpl μ :=
  { s with posted := s.posted ++ [message] }

def queueMessage (s : AsyncSchedulerImpl μ) (message : μ) : AsyncSchedulerImpl μ :=
  let s' : AsyncSchedulerImpl μ := { s with messageQueue := s.messageQueue ++ [message] }
  if s'.messageQueue.length = 1 then s'.scheduleAsync message else s'

/-- `popOfEmpty` is the call of `pop()` on an empty queue, which has no defined result. -/
inductive Event (μ : Type) where
  | queued (message : μ)
  | started (message : μ)
  | returned (message : μ)
  | popped (message : μ)
  | popOfEmpty
deriving DecidableEq, Repr

/-- The locked section of a job. -/
def popMessage (s : AsyncSchedulerImpl μ) : List (Event μ) × AsyncSchedulerImpl μ :=
  match s.messageQueue with
  | [] => ([.popOfEmpty], s)
  | front :: rest =>
      let s' : AsyncSchedulerImpl μ := { s with messageQueue := rest }
      match rest with
      | [] => ([.popped front], s')
      | message :: _ => ([.popped front], s'.scheduleAsync message)

/-- The numbers are positions in the lists of jobs. -/
inductive Action (μ : Type) where
  | queueMessage (message : μ)
  | start (n : ℕ)
  | finish (n : ℕ)
  | pop (n : ℕ)

def next (s : AsyncSchedulerImpl μ) : Action μ → Option (List (Event μ) × AsyncSchedulerImpl μ)
  | .queueMessage message => some ([.queued message], s.queueMessage message)
  | .start n =>
      match s.posted[n]? with
      | none => none
      | some message =>
          some ([.started message],
            { s with
              posted := s.posted.eraseIdx n
              inCallback := s.inCallback ++ [message] })
  | .finish n =>
      match s.inCallback[n]? with
      | none => none
      | some message =>
          some ([.returned message],
            { s with
              inCallback := s.inCallback.eraseIdx n
              afterCallback := s.afterCallback ++ [message] })
  | .pop n =>
      match s.afterCallback[n]? with
      | none => none
      | some _ => some (popMessage { s with afterCallback := s.afterCallback.eraseIdx n })

def machine (μ : Type) :
    Machine (AsyncSchedulerImpl μ) (Action μ) (Event μ) where
  init := new
  next := next

end AsyncSchedulerImpl

end UniversalDB
