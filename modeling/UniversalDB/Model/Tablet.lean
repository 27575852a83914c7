import Mathlib.Logic.Function.Basic
import UniversalDB.Library.AgreedLog
import UniversalDB.Library.TransitionSystem
import UniversalDB.Model.ClientRequestHandler

/-! # The participants of one tablet

Any number of participants of a tablet, over a log they agree on. `ι` names the
participants and `ε` the clients' endpoints. The agreed log stands for the Paxos group:
its positions are filled one after the other, each with an entry that a participant has
proposed when the position was its next available index, and a participant learns its
entries in any order. -/

namespace UniversalDB.Tablet

open ClientRequestHandler

structure State (ι ε : Type) where
  participants : ι → TabletParticipant ε
  agreedLog : AgreedLog PaxosLogEntry

/-- What a run shows. A response comes with the log index under which the id map holds the
request, if it does. An entry is applied when its callback has returned, and `value` is
what the store has returned to the callback. -/
inductive Event (ι ε : Type) where
  | requested (i : ι) (endpointId : ε) (message : ClientRequest)
  | proposed (i : ι) (index : ℕ) (entry : PaxosLogEntry)
  | responded (i : ι) (endpointId : ε) (message : ClientRequest) (entryIndex : Option ℕ)
      (response : ClientResponse)
  | applied (i : ι) (index : ℕ) (value : Option String)
deriving DecidableEq

inductive Action (ι ε : Type) where
  | request (i : ι) (endpointId : ε) (message : ClientRequest)
  | run (i : ι)
  | choose (k : ℕ)
  | learn (i : ι) (index : ℕ)

variable {ι ε : Type}

def State.initial : State ι ε where
  participants _ := ClientRequestHandler.new
  agreedLog := .empty

/-! ## What a participant does by itself -/

inductive LocalAction (ε : Type) where
  | request (endpointId : ε) (message : ClientRequest)
  | run

/-- Runs callbacks until one throws. -/
def applyCalls (i : ι) (p : TabletParticipant ε) :
    List (Call Callback) → List (Event ι ε) × TabletParticipant ε
  | [] => ([], p)
  | call :: calls =>
      let p' := callback p call
      if p'.exception.isSome then
        ([], p')
      else
        let (events, p'') := applyCalls i p' calls
        (.applied i call.index (callbackValue p call) :: events, p'')

/-- Sets an entry of the agreed log on the log of a participant. A participant with an
undefined read in one of its callbacks has stopped before the step. -/
def learn (i : ι) (p : TabletParticipant ε) (index : ℕ) (entry : PaxosLogEntry) :
    List (Event ι ε) × TabletParticipant ε :=
  match p.paxosLog.setEntry index entry with
  | .ok (paxosLog, calls) =>
      let (events, p') := applyCalls i { p with paxosLog := paxosLog } calls
      if p'.exception = some undefinedRead then
        ([], { p with exception := some undefinedRead })
      else
        (events, p')
  | .error exception => ([], { p with exception := some exception })

/-- The queue after its front task has run: a task that does not end stays in front. -/
def queueAfter (task : Task ε) (rest : List (Task ε)) (wait : ℤ) : List (Task ε) :=
  if wait = TERMINATE then rest else { task with retryCount := task.retryCount + 1 } :: rest

/-- What a participant by itself shows and leaves, with its proposal. -/
abbrev Outcome (ι ε : Type) :=
  List (Event ι ε) × TabletParticipant ε × Option (ℕ × PaxosLogEntry)

/-- `AsyncQueue::run_task` of participant `i`. -/
def run (i : ι) (p : TabletParticipant ε) (task : Task ε) (rest : List (Task ε)) :
    Outcome ι ε :=
  match runTask p task with
  | .error exception => ([], { p with exception := some exception }, none)
  | .ok result =>
      let p' : TabletParticipant ε :=
        { p with
          kvstore := result.kvstore
          asyncQueue := queueAfter task rest result.wait }
      let responses : List (Event ι ε) := result.response.toList.map
        (.responded i task.endpointId task.message (p.requestIdMap task.message.requestId))
      match result.proposal with
      | none => (responses, p', none)
      | some entry =>
          match p.paxosLog.nextAvailableIndex with
          | .ok index => (responses ++ [.proposed i index entry], p', some (index, entry))
          | .error exception => (responses, { p' with exception := some exception }, none)

def act (i : ι) : LocalAction ε → TabletParticipant ε → Option (Outcome ι ε)
  | .request endpointId message, p =>
      some ([.requested i endpointId message], handleRequest p endpointId message, none)
  | .run, p =>
      match p.asyncQueue with
      | [] => none
      | task :: rest => some (run i p task rest)

/-! ## Steps -/

/-- A task of participant `i` has run. -/
def State.finish [DecidableEq ι] (s : State ι ε) (i : ι) :
    Outcome ι ε → List (Event ι ε) × State ι ε
  | (events, p, proposal) =>
      (events, ⟨Function.update s.participants i p, s.agreedLog.offer proposal⟩)

/-- A participant that has stopped takes no step. The agreed log has fewer than `2 ^ 64`
positions, so that the index behind the last one is an index. -/
def next [DecidableEq ι] (s : State ι ε) : Action ι ε → Option (List (Event ι ε) × State ι ε)
  | .request i endpointId message =>
      let p := s.participants i
      if p.exception.isNone then
        some ([.requested i endpointId message],
          { s with
            participants := Function.update s.participants i
              (handleRequest p endpointId message) })
      else none
  | .run i =>
      let p := s.participants i
      match p.asyncQueue with
      | [] => none
      | task :: rest =>
          if p.exception.isNone then some (s.finish i (run i p task rest)) else none
  | .choose k =>
      if s.agreedLog.entries.length < 2 ^ 64 - 1 then
        match s.agreedLog.choose k with
        | none => none
        | some agreedLog => some ([], { s with agreedLog := agreedLog })
      else none
  | .learn i index =>
      let p := s.participants i
      match s.agreedLog.entries[index]? with
      | none => none
      | some entry =>
          if p.exception.isNone then
            let (events, p') := learn i p index entry
            some (events, { s with participants := Function.update s.participants i p' })
          else none

def machine (ι ε : Type) [DecidableEq ι] : Machine (State ι ε) (Action ι ε) (Event ι ε) where
  init := State.initial
  next := next

end UniversalDB.Tablet
