import UniversalDB.Model.Group
import UniversalDB.Model.HeartbeatTracker
import UniversalDB.Model.KeySpaceRange

/-! # The slaves of a group with all their logs

Each slave has a log of its own and one for each of its tablet participants, and all of
them use the connections between the slaves. `SlaveIncomingMessageHandler` tells the
messages apart, `TabletParticipantManager` queues those for a tablet with the scheduler of
its participant, and `IncomingMessageHandler` handles them there. Messages of clients and
masters come over other connections; they show here as the proposals and the participants
they lead to. An exception in any handler ends the process of the slave. What runs on top of
the logs, their callbacks and the tasks of clients and masters, shows as these proposals and
participants too, and it may throw at any time, which ends the process as well. -/

namespace UniversalDB.SlaveGroup

/-! ## Messages -/

inductive SlaveMessage where
  | notSet
  | heartbeat
  | paxosMessage (message : PaxosMessage)
  | syncRequest (request : SyncRequest)
  | syncResponse (response : SyncResponse)
deriving DecidableEq

/-- What slaves send each other. -/
inductive MessageWrapper where
  | notSet
  | slaveMessage (message : SlaveMessage)
  | tabletMessage (message : TabletMessage)
deriving DecidableEq

/-- A log of a slave: its own, or the one of a participant. -/
inductive LogId where
  | slave
  | tablet (tabletId : TabletId)
deriving DecidableEq

structure Envelope (n : ℕ) where
  src : Fin n
  dst : Fin n
  message : MessageWrapper

/-- The functors `SendPaxos` and `SendSync`, and those that `TabletParticipant` makes for
its own messages. -/
def wrap : LogId → Group.Payload → MessageWrapper
  | .slave, .paxosMessage message => .slaveMessage (.paxosMessage message)
  | .slave, .syncRequest request => .slaveMessage (.syncRequest request)
  | .slave, .syncResponse response => .slaveMessage (.syncResponse response)
  | .tablet tabletId, .paxosMessage message =>
      .tabletMessage ⟨Server.buildRange tabletId, .paxosMessage message⟩
  | .tablet tabletId, .syncRequest request =>
      .tabletMessage ⟨Server.buildRange tabletId, .syncRequest request⟩
  | .tablet tabletId, .syncResponse response =>
      .tabletMessage ⟨Server.buildRange tabletId, .syncResponse response⟩

/-! ## State -/

/-- `queue` holds what the scheduler of the participant has not yet handled. -/
structure TabletParticipant (n : ℕ) where
  node : Group.Node n
  queue : List (Fin n × TabletMessage)

/-- `exception` is what a handler of Paxos messages or sync messages has thrown, `stopped`
says that a callback or a task has thrown. -/
structure Slave (n : ℕ) where
  heartbeatTracker : HeartbeatTracker
  node : Group.Node n
  tpMap : KeyMap TabletId (TabletParticipant n)
  exception : Option UniversalException
  stopped : Bool

structure State (n : ℕ) where
  slaves : Fin n → Slave n
  network : List (Envelope n)

variable {n : ℕ}

def Slave.new (n : ℕ) : Slave n where
  heartbeatTracker := .new
  node := .new n
  tpMap := KeyMap.empty
  exception := none
  stopped := false

/-- The process of the slave runs. -/
def Slave.live (slave : Slave n) : Bool := slave.exception.isNone && !slave.stopped

def State.initial (n : ℕ) : State n where
  slaves _ := Slave.new n
  network := []

/-- `config_endpoints` of `main`. -/
def configEndpoint (i : Fin n) : EndpointId := ⟨"172.19.0." ++ toString (10 + i.val), 0⟩

def Slave.log (slave : Slave n) : LogId → Option (Group.Node n)
  | .slave => some slave.node
  | .tablet tabletId => (slave.tpMap tabletId).map TabletParticipant.node

def Slave.setLog (slave : Slave n) (node : Group.Node n) : LogId → Slave n
  | .slave => { slave with node := node }
  | .tablet tabletId =>
      match slave.tpMap tabletId with
      | none => slave
      | some tp => { slave with tpMap := slave.tpMap.assign tabletId { tp with node := node } }

/-- The participant that `_tp_provider` makes. -/
def TabletParticipant.new (n : ℕ) : TabletParticipant n where
  node := .new n
  queue := []

/-- `TabletParticipantManager::handle_key_space_change`. -/
def Slave.handleKeySpaceChange (slave : Slave n) (ranges : List TabletId) : Slave n :=
  { slave with
    tpMap := ranges.foldl (fun tpMap range => tpMap.insert range (TabletParticipant.new n))
      slave.tpMap }

/-- `TabletParticipantManager::handle_tablet_message`. -/
def Slave.handleTabletMessage (slave : Slave n) (src : Fin n) (message : TabletMessage) :
    Slave n :=
  let tabletId := Server.convert message.range
  match slave.tpMap tabletId with
  | none => slave
  | some tp =>
      { slave with
        tpMap := slave.tpMap.assign tabletId { tp with queue := tp.queue ++ [(src, message)] } }

/-! ## Steps -/

inductive Action (n : ℕ) where
  | propose (slave : Fin n) (log : LogId) (draw : ℕ) (entry : PaxosLogEntry)
  | sync (slave : Fin n) (log : LogId)
  | heartbeat (slave : Fin n)
  | keySpaceChange (slave : Fin n) (ranges : List TabletId)
  | deliver (position : ℕ)
  | handleQueued (slave : Fin n) (tabletId : TabletId)
  | stop (slave : Fin n)
  | drop (position : ℕ)

/-- An event of one of the logs. -/
abbrev Event (n : ℕ) := LogId × Group.Event n

def wrapPacket (log : LogId) (packet : Group.Packet n) : Envelope n :=
  ⟨packet.src, packet.dst, wrap log packet.payload⟩

/-- The step in which a handler call on a log ends with an outcome. -/
def State.finish (s : State n) (i : Fin n) (slave : Slave n) (log : LogId)
    (network : List (Envelope n)) : Group.Outcome n → List (Event n) × State n
  | .ok (node, events, packets) =>
      (events.map fun event => (log, event),
        ⟨Function.update s.slaves i (slave.setLog node log),
          network ++ packets.map (wrapPacket log)⟩)
  | .error exception =>
      ([], ⟨Function.update s.slaves i { slave with exception := some exception }, network⟩)

/-- `FailureDetector::schedule_heartbeat`. -/
def State.heartbeat (s : State n) (i : Fin n) : State n :=
  let slave := s.slaves i
  ⟨Function.update s.slaves i
      { slave with heartbeatTracker := slave.heartbeatTracker.incrementCounts },
    s.network ++ (List.finRange n).map fun dst => ⟨i, dst, .slaveMessage .heartbeat⟩⟩

/-- `SlaveIncomingMessageHandler::handle`. -/
def State.handle (s : State n) (network : List (Envelope n)) (envelope : Envelope n) :
    List (Event n) × State n :=
  let src := envelope.src
  let i := envelope.dst
  let slave := s.slaves i
  match envelope.message with
  | .tabletMessage message =>
      ([], ⟨Function.update s.slaves i (slave.handleTabletMessage src message), network⟩)
  | .slaveMessage .heartbeat =>
      ([], ⟨Function.update s.slaves i
        { slave with
          heartbeatTracker := slave.heartbeatTracker.handleHeartbeat (configEndpoint src) },
        network⟩)
  | .slaveMessage (.syncRequest request) =>
      s.finish i slave .slave network (slave.node.handle ⟨src, i, .syncRequest request⟩)
  | .slaveMessage (.syncResponse response) =>
      s.finish i slave .slave network (slave.node.handle ⟨src, i, .syncResponse response⟩)
  | .slaveMessage (.paxosMessage message) =>
      s.finish i slave .slave network (slave.node.handle ⟨src, i, .paxosMessage message⟩)
  | .slaveMessage .notSet => ([], ⟨s.slaves, network⟩)
  | .notSet => ([], ⟨s.slaves, network⟩)

/-- `IncomingMessageHandler::handle`, for the first message in the queue of a
participant. -/
def State.handleQueued (s : State n) (i : Fin n) (tabletId : TabletId)
    (tp : TabletParticipant n) (src : Fin n) (message : TabletMessage)
    (queue : List (Fin n × TabletMessage)) : List (Event n) × State n :=
  let slave : Slave n :=
    { s.slaves i with tpMap := (s.slaves i).tpMap.assign tabletId { tp with queue := queue } }
  match message.content with
  | .paxosMessage message =>
      s.finish i slave (.tablet tabletId) s.network
        (tp.node.handle ⟨src, i, .paxosMessage message⟩)
  | .syncRequest request =>
      s.finish i slave (.tablet tabletId) s.network
        (tp.node.handle ⟨src, i, .syncRequest request⟩)
  | .syncResponse response =>
      s.finish i slave (.tablet tabletId) s.network
        (tp.node.handle ⟨src, i, .syncResponse response⟩)
  | .notSet => ([], ⟨Function.update s.slaves i slave, s.network⟩)

def nextProposal (s : State n) (i : Fin n) (log : LogId) (node : Group.Node n) (draw : ℕ)
    (entry : PaxosLogEntry) : Option (List (Event n) × State n) :=
  match node.paxosLog.nextAvailableIndex with
  | .ok index =>
      if index < 2 ^ 32 then
        some (s.finish i (s.slaves i) log s.network (node.propose i index draw entry))
      else none
  | .error exception => some (s.finish i (s.slaves i) log s.network (.error exception))

/-- A callback or a task that throws may have left a step half done, of which no other slave
sees anything. A message at a slave that has stopped is lost. -/
def next (s : State n) : Action n → Option (List (Event n) × State n)
  | .propose i log draw entry =>
      if draw ≤ 999 ∧ (s.slaves i).live then
        ((s.slaves i).log log).bind fun node => nextProposal s i log node draw entry
      else none
  | .sync i log =>
      if (s.slaves i).live then
        ((s.slaves i).log log).map fun node =>
          ([], { s with network := s.network ++ (node.sync i).map (wrapPacket log) })
      else none
  | .heartbeat i =>
      if (s.slaves i).live then some ([], s.heartbeat i) else none
  | .keySpaceChange i ranges =>
      if (s.slaves i).live then
        some ([], { s with
          slaves := Function.update s.slaves i ((s.slaves i).handleKeySpaceChange ranges) })
      else none
  | .deliver position =>
      match s.network[position]? with
      | none => none
      | some envelope =>
          let rest := s.network.eraseIdx position
          if (s.slaves envelope.dst).live then
            some (s.handle rest envelope)
          else some ([], { s with network := rest })
  | .handleQueued i tabletId =>
      if (s.slaves i).live then
        match (s.slaves i).tpMap tabletId with
        | some ⟨node, (src, message) :: queue⟩ =>
            some (s.handleQueued i tabletId ⟨node, (src, message) :: queue⟩ src message queue)
        | _ => none
      else none
  | .stop i =>
      if (s.slaves i).live then
        some ([], { s with
          slaves := Function.update s.slaves i { s.slaves i with stopped := true } })
      else none
  | .drop position =>
      match s.network[position]? with
      | none => none
      | some _ => some ([], { s with network := s.network.eraseIdx position })

def machine (n : ℕ) : Machine (State n) (Action n) (Event n) where
  init := State.initial n
  next := next

end UniversalDB.SlaveGroup
