import Mathlib.Logic.Function.Basic
import UniversalDB.Library.AgreedLog
import UniversalDB.Library.TransitionSystem
import UniversalDB.Model.KeySpaceManager

/-! # `DataMaster`, and the masters of a database

The masters share a log they agree on, which stands for their Paxos group. Its positions
are filled one after the other, each with an entry that a master has proposed when the
position was its next available index, and a master learns its entries in any order. -/

namespace UniversalDB

open KeySpaceManager

/-- A slave group that every master registers. -/
structure SlaveGroup where
  groupId : SlaveGroupId
  slaveEndpoints : List EndpointId
  ne_nil : slaveEndpoints ≠ []

/-- `exception` is what a callback or a task has thrown: the master has stopped then. -/
structure DataMaster where
  paxosLog : PaxosLog KeySpaceManager.Callback
  groupConfigManager : GroupConfigManager
  slaveGroupRanges : SlaveGroupRanges
  asyncQueue : List FindKeyTask
  localAsyncQueue : List KeySpaceChangedTask
  exception : Option UniversalException

namespace DataMaster

def registerConfigs (groups : List SlaveGroup) : GroupConfigManager :=
  groups.foldl (fun m g => m.setFirstConfig g.groupId g.slaveEndpoints) ∅

def registerRanges (groups : List SlaveGroup) : SlaveGroupRanges :=
  groups.foldl (fun m g => setFirstConfig m g.groupId) ∅

/-- A master after its constructor. -/
def new (groups : List SlaveGroup) : DataMaster where
  paxosLog := (PaxosLog.new.addCallback .kKeySpaceSelected .keySpaceSelected).addCallback
    .kKeySpaceCommit .keySpaceCommit
  groupConfigManager := registerConfigs groups
  slaveGroupRanges := registerRanges groups
  asyncQueue := []
  localAsyncQueue := []
  exception := none

def handleFindKey (m : DataMaster) (endpointId : EndpointId) (message : FindKeyRangeRequest) :
    DataMaster :=
  { m with asyncQueue := m.asyncQueue ++ [⟨endpointId, message, 0⟩] }

def handleKeySpaceChanged (m : DataMaster) (endpointId : EndpointId)
    (message : Message.KeySpaceChanged) : DataMaster :=
  { m with localAsyncQueue := m.localAsyncQueue ++ [⟨endpointId, message⟩] }

/-- `PaxosLog::set_entry`, which runs the callbacks. -/
def setEntry (m : DataMaster) (index : ℕ) (entry : PaxosLogEntry) :
    Except UniversalException (DataMaster × List Sent) := do
  let (paxosLog, calls) ← m.paxosLog.setEntry index entry
  let (slaveGroupRanges, sent) ← PaxosLog.runCalls (run m.groupConfigManager)
    m.slaveGroupRanges calls
  return ({ m with paxosLog := paxosLog, slaveGroupRanges := slaveGroupRanges }, sent)

/-- The index that `MultiPaxosHandler::propose` proposes an entry for, if there is an entry
to propose. -/
def propose (m : DataMaster) : Option PaxosLogEntry →
    Except UniversalException (Option (ℕ × PaxosLogEntry))
  | none => return none
  | some entry => do
      let index ← m.paxosLog.nextAvailableIndex
      return some (index, entry)

end DataMaster

namespace Masters

structure State (ι : Type) where
  masters : ι → DataMaster
  agreedLog : AgreedLog PaxosLogEntry

/-- What a run shows: a message from a slave, a response to a client, a proposal, and a
message to a slave. -/
inductive Event (ι : Type) where
  | received (i : ι) (endpointId : EndpointId) (message : Message.KeySpaceChanged)
  | responded (i : ι) (endpointId : EndpointId) (message : FindKeyRangeRequest)
      (response : FindKeyRangeResponse)
  | proposed (i : ι) (index : ℕ) (entry : PaxosLogEntry)
  | sent (i : ι) (sent : Sent)
deriving DecidableEq

inductive Action (ι : Type) where
  | findKey (i : ι) (endpointId : EndpointId) (message : FindKeyRangeRequest)
  | keySpaceChanged (i : ι) (endpointId : EndpointId) (message : Message.KeySpaceChanged)
  | runFindKey (i : ι) (order : List ((_ : SlaveGroupId) × KeySpaceState))
  | runKeySpaceChanged (i : ι) (order : List ((_ : SlaveGroupId) × ConfigState))
  | choose (k : ℕ)
  | learn (i : ι) (index : ℕ)

variable {ι : Type}

def State.initial (groups : List SlaveGroup) : State ι where
  masters _ := .new groups
  agreedLog := .empty

/-! ## What a master does by itself -/

inductive LocalAction where
  | findKey (endpointId : EndpointId) (message : FindKeyRangeRequest)
  | keySpaceChanged (endpointId : EndpointId) (message : Message.KeySpaceChanged)
  | runFindKey (order : List ((_ : SlaveGroupId) × KeySpaceState))
  | runKeySpaceChanged (order : List ((_ : SlaveGroupId) × ConfigState))

/-- What a master shows and leaves, with its proposal. -/
abbrev Outcome (ι : Type) := List (Event ι) × DataMaster × Option (ℕ × PaxosLogEntry)

/-- A task of master `m` has run and left `m'`, and may have something to propose. -/
def finishTask (i : ι) (m m' : DataMaster) (events : List (Event ι)) :
    Except UniversalException (Option (ℕ × PaxosLogEntry)) → Outcome ι
  | .error exception => (events, { m with exception := some exception }, none)
  | .ok none => (events, m', none)
  | .ok (some (index, entry)) => (events ++ [.proposed i index entry], m', some (index, entry))

/-- `AsyncQueue::run_task` for the queue of the find-key tasks of master `i`. -/
def runFindKey (i : ι) (m : DataMaster) (order : List ((_ : SlaveGroupId) × KeySpaceState))
    (task : FindKeyTask) (rest : List FindKeyTask) : Outcome ι :=
  let result := KeySpaceManager.runFindKey m.groupConfigManager order task
  let queue :=
    if result.wait = TERMINATE then rest
    else { task with retryCount := result.retryCount } :: rest
  let events : List (Event ι) :=
    result.response.toList.map (.responded i task.endpointId task.message) ++
      result.sent.map (.sent i)
  finishTask i m { m with asyncQueue := queue } events (m.propose result.proposal)

/-- `AsyncQueue::run_task` for the local queue of master `i`. -/
def runKeySpaceChanged (i : ι) (m : DataMaster)
    (order : List ((_ : SlaveGroupId) × ConfigState)) (task : KeySpaceChangedTask)
    (rest : List KeySpaceChangedTask) : Outcome ι :=
  let (proposal, wait) := KeySpaceManager.runKeySpaceChanged order m.slaveGroupRanges task
  let queue := if wait = TERMINATE then rest else task :: rest
  finishTask i m { m with localAsyncQueue := queue } [] (m.propose proposal)

def act (i : ι) : LocalAction → DataMaster → Option (Outcome ι)
  | .findKey endpointId message, m => some ([], m.handleFindKey endpointId message, none)
  | .keySpaceChanged endpointId message, m =>
      some ([.received i endpointId message], m.handleKeySpaceChanged endpointId message, none)
  | .runFindKey order, m =>
      match m.asyncQueue with
      | [] => none
      | task :: rest =>
          if m.slaveGroupRanges.Traversal order then some (runFindKey i m order task rest)
          else none
  | .runKeySpaceChanged order, m =>
      match m.localAsyncQueue with
      | [] => none
      | task :: rest =>
          if m.groupConfigManager.Traversal order then
            some (runKeySpaceChanged i m order task rest)
          else none

/-- Sets an entry of the agreed log on the log of a master, with what its callbacks send. A
master that throws stops. -/
def learn (i : ι) (m : DataMaster) (index : ℕ) (entry : PaxosLogEntry) :
    List (Event ι) × DataMaster :=
  match m.setEntry index entry with
  | .error exception => ([], { m with exception := some exception })
  | .ok (m', sent) => (sent.map (.sent i), m')

/-! ## Steps -/

variable [DecidableEq ι]

def State.setMaster (s : State ι) (i : ι) (m : DataMaster) : State ι :=
  { s with masters := Function.update s.masters i m }

/-- A task of master `i` has run. -/
def State.finish (s : State ι) (i : ι) : Outcome ι → List (Event ι) × State ι
  | (events, m, proposal) =>
      (events, { s.setMaster i m with agreedLog := s.agreedLog.offer proposal })

/-- A master that has stopped takes no step. The agreed log has fewer than `2 ^ 64`
positions, so that the index behind the last one is an index. -/
def next (s : State ι) : Action ι → Option (List (Event ι) × State ι)
  | .findKey i endpointId message =>
      if (s.masters i).exception.isNone then
        some ([], s.setMaster i ((s.masters i).handleFindKey endpointId message))
      else none
  | .keySpaceChanged i endpointId message =>
      if (s.masters i).exception.isNone then
        some ([.received i endpointId message],
          s.setMaster i ((s.masters i).handleKeySpaceChanged endpointId message))
      else none
  | .runFindKey i order =>
      match (s.masters i).asyncQueue with
      | [] => none
      | task :: rest =>
          if (s.masters i).exception.isNone ∧
              (s.masters i).slaveGroupRanges.Traversal order then
            some (s.finish i (runFindKey i (s.masters i) order task rest))
          else none
  | .runKeySpaceChanged i order =>
      match (s.masters i).localAsyncQueue with
      | [] => none
      | task :: rest =>
          if (s.masters i).exception.isNone ∧
              (s.masters i).groupConfigManager.Traversal order then
            some (s.finish i (runKeySpaceChanged i (s.masters i) order task rest))
          else none
  | .choose k =>
      if s.agreedLog.entries.length < 2 ^ 64 - 1 then
        match s.agreedLog.choose k with
        | none => none
        | some agreedLog => some ([], { s with agreedLog := agreedLog })
      else none
  | .learn i index =>
      match s.agreedLog.entries[index]? with
      | none => none
      | some entry =>
          if (s.masters i).exception.isNone then
            let (events, m) := learn i (s.masters i) index entry
            some (events, s.setMaster i m)
          else none

/-- The masters, with the groups that they register. -/
def machine (ι : Type) [DecidableEq ι] (groups : List SlaveGroup) :
    Machine (State ι) (Action ι) (Event ι) where
  init := State.initial groups
  next := next

end Masters

end UniversalDB
