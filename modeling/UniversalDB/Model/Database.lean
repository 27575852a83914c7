import UniversalDB.Model.DataMaster
import UniversalDB.Model.SlaveKeySpaceManager

/-! # Masters and slave groups

The masters, the slaves of their groups, and the messages about key spaces between them.
The slaves of a group share a log they agree on, as the masters do. A message that has been
sent can arrive at its receiver at any later time, any number of times, or never. -/

namespace UniversalDB

structure SlaveTask (ι : Type) where
  master : ι
  message : Message.NewKeySpaceSelected
deriving DecidableEq

/-- The part of a `LocalTransactionManager` that key spaces concern. `exception` is what a
callback or a task has thrown: the slave has stopped then. -/
structure Slave (ι : Type) where
  paxosLog : PaxosLog Unit
  keySpaceManager : SlaveKeySpaceManager
  asyncQueue : List (SlaveTask ι)
  exception : Option UniversalException

namespace Slave

variable {ι : Type}

def new : Slave ι where
  paxosLog := PaxosLog.new.addCallback .kKeySpaceChanged ()
  keySpaceManager := .new
  asyncQueue := []
  exception := none

def handleKeySpaceChange (v : Slave ι) (master : ι) (message : Message.NewKeySpaceSelected) :
    Slave ι :=
  { v with asyncQueue := v.asyncQueue ++ [⟨master, message⟩] }

/-- `PaxosLog::set_entry`, which runs the callback. -/
def setEntry (v : Slave ι) (index : ℕ) (entry : PaxosLogEntry) :
    Except UniversalException (Slave ι × List Message.KeySpaceChanged) := do
  let (paxosLog, calls) ← v.paxosLog.setEntry index entry
  let (keySpaceManager, sent) ← PaxosLog.runCalls SlaveKeySpaceManager.run
    v.keySpaceManager calls
  return ({ v with paxosLog := paxosLog, keySpaceManager := keySpaceManager }, sent)

end Slave

namespace Database

structure ToSlave (ι : Type) where
  master : ι
  sent : KeySpaceManager.Sent
deriving DecidableEq

structure ToMaster (ι : Type) where
  slave : EndpointId
  master : ι
  message : Message.KeySpaceChanged
deriving DecidableEq

/-- `toSlaves` and `toMasters` hold everything that has ever been sent. -/
structure State (ι : Type) where
  masters : Masters.State ι
  slaves : EndpointId → Slave ι
  slaveLogs : SlaveGroupId → AgreedLog PaxosLogEntry
  toSlaves : List (ToSlave ι)
  toMasters : List (ToMaster ι)

/-- The reply of a callback goes to the first master that the slave is connected with. -/
inductive Action (ι : Type) where
  | master (action : Masters.Action ι)
  | deliverToMaster (k : ℕ)
  | deliverToSlave (k : ℕ)
  | run (slave : EndpointId)
  | choose (groupId : SlaveGroupId) (k : ℕ)
  | learn (slave : EndpointId) (index : ℕ) (first : ι)

variable {ι : Type} [DecidableEq ι]

def State.initial (groups : List SlaveGroup) : State ι where
  masters := .initial groups
  slaves _ := .new
  slaveLogs _ := .empty
  toSlaves := []
  toMasters := []

/-- The group of a slave. -/
def groupOf (groups : List SlaveGroup) (slave : EndpointId) : Option SlaveGroupId :=
  match groups.find? fun group => slave ∈ group.slaveEndpoints with
  | some group => some group.groupId
  | none => none

/-- What the events of masters send to slaves. -/
def sentToSlaves : List (Masters.Event ι) → List (ToSlave ι)
  | [] => []
  | .sent i sent :: events => ⟨i, sent⟩ :: sentToSlaves events
  | _ :: events => sentToSlaves events

def nextMaster (s : State ι) (action : Masters.Action ι) :
    Option (List (Masters.Event ι) × State ι) :=
  match Masters.next s.masters action with
  | none => none
  | some (events, masters) =>
      some (events, { s with masters := masters, toSlaves := s.toSlaves ++ sentToSlaves events })

def State.setSlave (s : State ι) (slave : EndpointId) (v : Slave ι) : State ι :=
  { s with slaves := Function.update s.slaves slave v }

def State.stop (s : State ι) (slave : EndpointId) (exception : UniversalException) : State ι :=
  s.setSlave slave { s.slaves slave with exception := some exception }

/-- `AsyncQueue::run_task` of a slave. -/
def runTask (s : State ι) (groupId : SlaveGroupId) (slave : EndpointId) (task : SlaveTask ι)
    (rest : List (SlaveTask ι)) : State ι :=
  let v := s.slaves slave
  let result := v.keySpaceManager.runTask task.message
  let queue := if result.wait = SlaveKeySpaceManager.TERMINATE then rest else task :: rest
  let s' : State ι :=
    { s.setSlave slave { v with asyncQueue := queue } with
      toMasters := s.toMasters ++ result.reply.toList.map (⟨slave, task.master, ·⟩) }
  match result.proposal with
  | none => s'
  | some entry =>
      match v.paxosLog.nextAvailableIndex with
      | .error exception => s.stop slave exception
      | .ok index =>
          { s' with
            slaveLogs := Function.update s.slaveLogs groupId
              ((s.slaveLogs groupId).propose index entry) }

/-- Sets an entry of the agreed log of its group on the log of a slave. -/
def learn (s : State ι) (slave : EndpointId) (index : ℕ) (entry : PaxosLogEntry) (first : ι) :
    State ι :=
  match (s.slaves slave).setEntry index entry with
  | .error exception => s.stop slave exception
  | .ok (v, sent) =>
      { s.setSlave slave v with
        toMasters := s.toMasters ++ sent.map (⟨slave, first, ·⟩) }

/-- A master is told of a changed key space by messages only. -/
def next (groups : List SlaveGroup) (s : State ι) :
    Action ι → Option (List (Masters.Event ι) × State ι)
  | .master (.keySpaceChanged _ _ _) => none
  | .master action => nextMaster s action
  | .deliverToMaster k =>
      match s.toMasters[k]? with
      | none => none
      | some p => nextMaster s (.keySpaceChanged p.master p.slave p.message)
  | .deliverToSlave k =>
      match s.toSlaves[k]? with
      | none => none
      | some p =>
          let slave := p.sent.endpointId
          if (s.slaves slave).exception.isNone then
            some ([], s.setSlave slave
              ((s.slaves slave).handleKeySpaceChange p.master p.sent.message))
          else none
  | .run slave =>
      match groupOf groups slave, (s.slaves slave).asyncQueue with
      | some groupId, task :: rest =>
          if (s.slaves slave).exception.isNone then
            some ([], runTask s groupId slave task rest)
          else none
      | _, _ => none
  | .choose groupId k =>
      if (s.slaveLogs groupId).entries.length < 2 ^ 64 - 1 then
        match (s.slaveLogs groupId).choose k with
        | none => none
        | some slaveLog =>
            some ([], { s with slaveLogs := Function.update s.slaveLogs groupId slaveLog })
      else none
  | .learn slave index first =>
      match groupOf groups slave with
      | none => none
      | some groupId =>
          match (s.slaveLogs groupId).entries[index]? with
          | none => none
          | some entry =>
              if (s.slaves slave).exception.isNone then
                some ([], learn s slave index entry first)
              else none

/-- The masters and their slaves. A run shows the events of the masters. -/
def machine (ι : Type) [DecidableEq ι] (groups : List SlaveGroup) :
    Machine (State ι) (Action ι) (Masters.Event ι) where
  init := State.initial groups
  next := next groups

end Database

end UniversalDB
