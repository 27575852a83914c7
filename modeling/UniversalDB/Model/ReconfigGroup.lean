import UniversalDB.Model.Group
import UniversalDB.Model.PaxosConfigManager

/-! # A Paxos group that is reconfigured

The nodes of one group, whose log may hold `ReconfigStarted` entries. Every endpoint is a
node, whether or not it is in a configuration, and all start with the same list of slaves.
The network is the one of a group with a fixed membership. -/

namespace UniversalDB.ReconfigGroup

structure Packet where
  src : EndpointId
  dst : EndpointId
  payload : Group.Payload

structure Node where
  configuredLog : ConfiguredLog
  multiPaxosHandler : MultiPaxosHandler EndpointId
  exception : Option UniversalException

structure State where
  nodes : EndpointId → Node
  network : List Packet

/-- What a run shows: a node creates the handler of an instance, when `learned` is its next
available index. -/
structure Created where
  node : EndpointId
  index : ℕ
  learned : ℕ
deriving DecidableEq, Repr

inductive Action where
  | propose (node : EndpointId) (draw : ℕ) (entry : PaxosLogEntry)
  | sync (node : EndpointId)
  | deliver (position : ℕ)
  | drop (position : ℕ)

/-- The provider of the handler is not asked: `Node.getInstance` creates the instances. -/
def Node.new (constants : Constants) (slaves : List EndpointId) : Node where
  configuredLog := .new slaves
  multiPaxosHandler := .new fun index => .new constants index slaves
  exception := none

def State.initial (constants : Constants) (slaves : List EndpointId) : State where
  nodes _ := Node.new constants slaves
  network := []

/-- The instance provider of `LocalTransactionManager`, which reads the configuration when
it is called. -/
def Node.instanceProvider (node : Node) (constants : Constants) (index : ℕ) :
    Except UniversalException (SinglePaxosHandler EndpointId) := do
  let configEndpoints ← node.configuredLog.paxosConfigManager.config index
  return .new constants index configEndpoints

/-- `get_instance` asks the provider for a missing instance. The next available index is
looked up for the event only. -/
def Node.getInstance (node : Node) (constants : Constants) (self : EndpointId) (index : ℕ) :
    Except UniversalException (Node × List Created) :=
  match node.multiPaxosHandler.paxosInstances index with
  | some _ => return (node, [])
  | none => do
      let h ← node.instanceProvider constants index
      let learned ← node.configuredLog.paxosLog.nextAvailableIndex
      return ({ node with
          multiPaxosHandler := node.multiPaxosHandler.setInstance index h },
        [⟨self, index, learned⟩])

/-- The copies a call of `Connections` puts on the network. -/
def outgoing (src : EndpointId) : Effect EndpointId → List Packet
  | .broadcast endpoints message => endpoints.map fun dst => ⟨src, dst, .paxosMessage message⟩
  | .send dst message => [⟨src, dst, .paxosMessage message⟩]
  | .setEntry _ _ => []

def written : Effect EndpointId → Option (ℕ × PaxosLogEntry)
  | .setEntry index entry => some (index, entry)
  | _ => none

/-- The result of a handler call on a node: the new node, the instances it creates and what
it puts on the network. -/
abbrev Outcome := Except UniversalException (Node × List Created × List Packet)

def Node.propose (node : Node) (constants : Constants) (self : EndpointId) (index draw : ℕ)
    (entry : PaxosLogEntry) : Outcome := do
  let (node, created) ← node.getInstance constants self index
  let (multiPaxosHandler, effects) ←
    node.multiPaxosHandler.propose node.configuredLog.paxosLog draw entry
  return ({ node with multiPaxosHandler := multiPaxosHandler }, created,
    effects.flatMap (outgoing self))

/-- The repeated task of `LogSyncer::schedule_syncing`. A request that is undefined is not
sent. -/
def Node.sync (node : Node) (self : EndpointId) : List Packet :=
  (LogSyncer.requestFor node.configuredLog.paxosLog).toList.flatMap fun request =>
    node.configuredLog.paxosConfigManager.latestConfig.map fun dst =>
      ⟨self, dst, .syncRequest request⟩

def Node.handle (node : Node) (constants : Constants) (packet : Packet) : Outcome :=
  match packet.payload with
  | .paxosMessage message => do
      let (node, created) ← node.getInstance constants packet.dst message.paxosIndex.toNat
      let (multiPaxosHandler, effects) ←
        node.multiPaxosHandler.handleIncomingMessage packet.src message
      let configuredLog ← node.configuredLog.setEntries (effects.filterMap written)
      return ({ node with multiPaxosHandler := multiPaxosHandler, configuredLog := configuredLog },
        created, effects.flatMap (outgoing packet.dst))
  | .syncRequest request => do
      let response ← LogSyncer.buildSyncResponse node.configuredLog.paxosLog request
      return (node, [], [⟨packet.dst, packet.src, .syncResponse response⟩])
  | .syncResponse response => do
      let configuredLog ← node.configuredLog.setEntries
        (response.missingEntries.map fun entryWithIndex =>
          (entryWithIndex.index.toNat, entryWithIndex.entry))
      return ({ node with configuredLog := configuredLog }, [], [])

/-- The step in which a handler call on a node ends with an outcome. -/
def State.finish (s : State) (self : EndpointId) (network : List Packet) :
    Outcome → List Created × State
  | .ok (node, created, packets) =>
      (created, ⟨Function.update s.nodes self node, network ++ packets⟩)
  | .error exception =>
      ([], ⟨Function.update s.nodes self
        { s.nodes self with exception := some exception }, network⟩)

/-- A message copy at a node that has stopped is lost. -/
def next (constants : Constants) (s : State) : Action → Option (List Created × State)
  | .propose self draw entry =>
      let node := s.nodes self
      if draw ≤ 999 ∧ node.exception.isNone then
        match node.configuredLog.paxosLog.nextAvailableIndex with
        | .ok index =>
            some (s.finish self s.network (node.propose constants self index draw entry))
        | .error exception => some (s.finish self s.network (.error exception))
      else none
  | .sync self =>
      let node := s.nodes self
      if node.exception.isNone then
        some ([], { s with network := s.network ++ node.sync self })
      else none
  | .deliver position =>
      match s.network[position]? with
      | none => none
      | some packet =>
          let rest := s.network.eraseIdx position
          let node := s.nodes packet.dst
          if node.exception.isNone then
            some (s.finish packet.dst rest (node.handle constants packet))
          else
            some ([], { s with network := rest })
  | .drop position =>
      match s.network[position]? with
      | none => none
      | some _ => some ([], { s with network := s.network.eraseIdx position })

def machine (constants : Constants) (slaves : List EndpointId) :
    Machine State Action Created where
  init := State.initial constants slaves
  next := next constants

end UniversalDB.ReconfigGroup
