import UniversalDB.Library.TransitionSystem
import UniversalDB.Model.PaxosLog
import UniversalDB.Model.TimerAsyncScheduler

/-! # `ProposerQueue`

`τ` is the type of the tasks. What the callbacks of a task do when they are run is not known
to the queue. -/

namespace UniversalDB

/-- The jobs that a queue schedules, each with what its closure captures. -/
structure TryProposal (τ : Type) where
  task : τ
  index : ℕ
  entry : PaxosLogEntry
  tries : ℕ
deriving DecidableEq, Repr

structure ProposerQueue (τ κ : Type) where
  timerScheduler : TimerAsyncScheduler (TryProposal τ)
  paxosLog : PaxosLog κ
  tasks : List τ

namespace ProposerQueue

variable {τ κ : Type}

def PROPOSAL_WAIT_TIME : ℤ := 100

def PROPOSAL_RETRIES : ℕ := 3

def new (paxosLog : PaxosLog κ) : ProposerQueue τ κ := ⟨.empty, paxosLog, []⟩

/-- What a run of a try callback does: the tasks that it inserts and what it returns. -/
structure TryRun (τ : Type) where
  inserted : List τ
  result : Option PaxosLogEntry

/-- What is called, with the task it is called for. Nothing in the source calls a success
callback. `fired` is the run of a job, with the next available index that it finds. -/
inductive Event (τ : Type) where
  | inserted (task : τ)
  | tried (task : τ) (result : Option PaxosLogEntry)
  | proposed (task : τ) (index : ℕ) (entry : PaxosLogEntry)
  | fired (job : TryProposal τ) (nextAvailableIndex : ℕ)
  | succeeded (task : τ)
  | failed (task : τ)
  | popped (task : τ)
deriving DecidableEq, Repr

/-- A callback runs while its task is in front, so the tasks that it inserts are only pushed.
`runs` is what the try callbacks do, one after the other; there is no result if it ends
before the loop does. -/
def removeInvalidTasks : ProposerQueue τ κ → List (TryRun τ) →
    Option (List (Event τ) × Option PaxosLogEntry × ProposerQueue τ κ)
  | q, runs =>
      match q.tasks, runs with
      | [], _ => some ([], none, q)
      | _ :: _, [] => none
      | task :: rest, run :: runs =>
          let events := run.inserted.map .inserted ++ [.tried task run.result]
          match run.result with
          | some entry =>
              some (events, some entry, { q with tasks := task :: rest ++ run.inserted })
          | none =>
              match removeInvalidTasks { q with tasks := rest ++ run.inserted } runs with
              | none => none
              | some (events', entry, q') =>
                  some (events ++ .popped task :: events', entry, q')

/-- `try_proposal` over the `run_task` with which it ends. The failure callback inserts the
tasks `inserted`. An exception, or `pop()` on an empty queue, gives no result. -/
def tryProposalWith
    (runTask : ProposerQueue τ κ → Option (List (Event τ) × ProposerQueue τ κ))
    (q : ProposerQueue τ κ) (job : TryProposal τ) (inserted : List τ) :
    Option (List (Event τ) × ProposerQueue τ κ) :=
  match q.paxosLog.nextAvailableIndex with
  | .error _ => none
  | .ok nextAvailableIndex =>
      if job.index < nextAvailableIndex then
        some ([], q)
      else if job.tries > 0 then
        some ([.proposed job.task job.index job.entry],
          { q with timerScheduler := q.timerScheduler.scheduleOnce job PROPOSAL_WAIT_TIME })
      else
        match q.tasks with
        | [] => none
        | front :: rest =>
            match runTask { q with tasks := rest ++ inserted } with
            | none => none
            | some (events, q') =>
                some (.failed job.task :: inserted.map .inserted ++ .popped front :: events, q')

/-- The first proposal of a task finds tries left, so it does not run the next task. -/
def runTask (q : ProposerQueue τ κ) (runs : List (TryRun τ)) :
    Option (List (Event τ) × ProposerQueue τ κ) :=
  match q.removeInvalidTasks runs with
  | none => none
  | some (events, none, q') => some (events, q')
  | some (events, some entry, q') =>
      match q'.tasks, q'.paxosLog.nextAvailableIndex with
      | task :: _, .ok index =>
          match tryProposalWith (fun _ => none) q' ⟨task, index, entry, PROPOSAL_RETRIES⟩ [] with
          | none => none
          | some (events', q'') => some (events ++ events', q'')
      | _, _ => none

def tryProposal (q : ProposerQueue τ κ) (job : TryProposal τ) (inserted : List τ)
    (runs : List (TryRun τ)) : Option (List (Event τ) × ProposerQueue τ κ) :=
  tryProposalWith (fun q' => q'.runTask runs) q job inserted

def tryInsert (q : ProposerQueue τ κ) (task : τ) (runs : List (TryRun τ)) :
    Option (List (Event τ) × ProposerQueue τ κ) :=
  let q' : ProposerQueue τ κ := { q with tasks := q.tasks ++ [task] }
  if q'.tasks.length = 1 then
    match q'.runTask runs with
    | none => none
    | some (events, q'') => some (.inserted task :: events, q'')
  else some ([.inserted task], q')

/-! ## The queue, its timers and the log -/

/-- A task is inserted from outside, the job at position `n` is run, or the log gets an
entry. -/
inductive Action (τ : Type) where
  | tryInsert (task : τ) (runs : List (TryRun τ))
  | fire (n : ℕ) (inserted : List τ) (runs : List (TryRun τ))
  | setEntry (index : ℕ) (entry : PaxosLogEntry)

/-- The log gets no entry at the greatest index, so that the index behind every entry is an
index. -/
def next (q : ProposerQueue τ κ) :
    Action τ → Option (List (Event τ) × ProposerQueue τ κ)
  | .tryInsert task runs => q.tryInsert task runs
  | .fire n inserted runs =>
      match q.timerScheduler.fire n, q.paxosLog.nextAvailableIndex with
      | some (job, timerScheduler), .ok nextAvailableIndex =>
          let q' : ProposerQueue τ κ := { q with timerScheduler := timerScheduler }
          match q'.tryProposal { job with tries := job.tries - 1 } inserted runs with
          | none => none
          | some (events, q'') => some (.fired job nextAvailableIndex :: events, q'')
      | _, _ => none
  | .setEntry index entry =>
      if index < 2 ^ 64 - 1 then
        match q.paxosLog.setEntry index entry with
        | .ok (paxosLog, _) => some ([], { q with paxosLog := paxosLog })
        | .error _ => none
      else none

def machine (τ κ : Type) : Machine (ProposerQueue τ κ) (Action τ) (Event τ) where
  init := new .new
  next := next

end ProposerQueue

end UniversalDB
