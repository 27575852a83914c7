import UniversalDB.Library.TransitionSystem
import UniversalDB.Model.LogSyncer
import UniversalDB.Model.MultiPaxosHandler

/-! # One Paxos group

The system of `n` nodes with a fixed membership: every instance broadcasts to all nodes,
and `num_slave_servers` is `n`. The network is a list of message copies. A step delivers
or drops the copy at any position, so copies are delayed and reordered freely, and each is
delivered at most once. The callbacks of the applications do not act on the group, and
none is registered. A node on which a handler throws takes no further step. -/

namespace UniversalDB.Group

inductive Payload where
  | paxosMessage (message : PaxosMessage)
  | syncRequest (request : SyncRequest)
  | syncResponse (response : SyncResponse)

structure Packet (n : ℕ) where
  src : Fin n
  dst : Fin n
  payload : Payload

structure Node (n : ℕ) where
  paxosLog : PaxosLog Empty
  multiPaxosHandler : MultiPaxosHandler (Fin n)
  exception : Option UniversalException

structure State (n : ℕ) where
  nodes : Fin n → Node n
  network : List (Packet n)

/-- What a run shows: the proposals that are passed to `MultiPaxosHandler::propose` with
the next available index of the node, and what the Paxos instances send and write. -/
inductive Event (n : ℕ) where
  | proposed (node : Fin n) (index : ℕ) (entry : PaxosLogEntry)
  | promised (node proposer : Fin n) (index rnd vrnd : ℕ) (vval : PaxosLogEntry)
  | acceptSent (node : Fin n) (index vrnd : ℕ) (vval : PaxosLogEntry)
  | accepted (node : Fin n) (index vrnd : ℕ) (vval : PaxosLogEntry)
  | learned (node : Fin n) (index vrnd : ℕ) (entry : PaxosLogEntry)
deriving DecidableEq

inductive Action (n : ℕ) where
  | propose (node : Fin n) (draw : ℕ) (entry : PaxosLogEntry)
  | sync (node : Fin n)
  | deliver (position : ℕ)
  | drop (position : ℕ)

def instanceProvider (n : ℕ) (index : ℕ) : SinglePaxosHandler (Fin n) :=
  .new ⟨n⟩ index (List.finRange n)

def Node.new (n : ℕ) : Node n where
  paxosLog := .new
  multiPaxosHandler := .new (instanceProvider n)
  exception := none

def State.initial (n : ℕ) : State n where
  nodes _ := Node.new n
  network := []

variable {n : ℕ}

/-- The copies a call of `Connections` puts on the network. -/
def outgoing (src : Fin n) : Effect (Fin n) → List (Packet n)
  | .broadcast endpoints message => endpoints.map fun dst => ⟨src, dst, .paxosMessage message⟩
  | .send dst message => [⟨src, dst, .paxosMessage message⟩]
  | .setEntry _ _ => []

def written : Effect (Fin n) → Option (ℕ × PaxosLogEntry)
  | .setEntry index entry => some (index, entry)
  | _ => none

/-- What is shown of an effect of handling a message with the given content. -/
def shown (node : Fin n) (content : PaxosMessage.Content) :
    Effect (Fin n) → Option (Event n)
  | .broadcast _ message =>
      match message.content with
      | .accept vrnd vval => some (.acceptSent node message.paxosIndex.toNat vrnd vval)
      | .learn vrnd vval => some (.accepted node message.paxosIndex.toNat vrnd vval)
      | _ => none
  | .send proposer message =>
      match message.content with
      | .promise rnd vrnd vval =>
          some (.promised node proposer message.paxosIndex.toNat rnd vrnd vval)
      | _ => none
  | .setEntry index entry =>
      match content with
      | .learn vrnd _ => some (.learned node index vrnd entry)
      | _ => none

/-- The result of a handler call on a node: the new node, what it shows and what it puts
on the network. -/
abbrev Outcome (n : ℕ) :=
  Except UniversalException (Node n × List (Event n) × List (Packet n))

def Node.propose (node : Node n) (self : Fin n) (index draw : ℕ) (entry : PaxosLogEntry) :
    Outcome n := do
  let (multiPaxosHandler, effects) ←
    node.multiPaxosHandler.propose node.paxosLog draw entry
  return ({ node with multiPaxosHandler := multiPaxosHandler },
    [.proposed self index entry], effects.flatMap (outgoing self))

/-- The repeated task of `LogSyncer::schedule_syncing`. A request that is undefined is not
sent. -/
def Node.sync (node : Node n) (self : Fin n) : List (Packet n) :=
  (LogSyncer.requestFor node.paxosLog).toList.flatMap fun request =>
    (List.finRange n).map fun dst => ⟨self, dst, .syncRequest request⟩

def Node.handle (node : Node n) (packet : Packet n) : Outcome n :=
  match packet.payload with
  | .paxosMessage message => do
      let (multiPaxosHandler, effects) ←
        node.multiPaxosHandler.handleIncomingMessage packet.src message
      let (paxosLog, _) ← node.paxosLog.setEntries (effects.filterMap written)
      return ({ node with multiPaxosHandler := multiPaxosHandler, paxosLog := paxosLog },
        effects.filterMap (shown packet.dst message.content),
        effects.flatMap (outgoing packet.dst))
  | .syncRequest request => do
      let response ← LogSyncer.buildSyncResponse node.paxosLog request
      return (node, [], [⟨packet.dst, packet.src, .syncResponse response⟩])
  | .syncResponse response => do
      let (paxosLog, _) ← LogSyncer.handleSyncResponse node.paxosLog response
      return ({ node with paxosLog := paxosLog }, [], [])

/-- The step in which a handler call on a node ends with an outcome. -/
def State.finish (s : State n) (self : Fin n) (network : List (Packet n)) :
    Outcome n → List (Event n) × State n
  | .ok (node, events, packets) =>
      (events, ⟨Function.update s.nodes self node, network ++ packets⟩)
  | .error exception =>
      ([], ⟨Function.update s.nodes self
        { s.nodes self with exception := some exception }, network⟩)

/-- A message copy at a node that has stopped is lost. Proposals are made at indices that
fit the index field of a message. -/
def next (s : State n) : Action n → Option (List (Event n) × State n)
  | .propose self draw entry =>
      let node := s.nodes self
      if draw ≤ 999 ∧ node.exception.isNone then
        match node.paxosLog.nextAvailableIndex with
        | .ok index =>
            if index < 2 ^ 32 then
              some (s.finish self s.network (node.propose self index draw entry))
            else none
        | .error exception => some (s.finish self s.network (.error exception))
      else none
  | .sync self =>
      let node := s.nodes self
      if node.exception.isNone then
        some ([], { s with network := s.network ++ node.sync self })
      else none
  | .deliver position =>
      match s.network[position]? with
      | none => none
      | some packet =>
          let rest := s.network.eraseIdx position
          let node := s.nodes packet.dst
          if node.exception.isNone then
            some (s.finish packet.dst rest (node.handle packet))
          else
            some ([], { s with network := rest })
  | .drop position =>
      match s.network[position]? with
      | none => none
      | some _ => some ([], { s with network := s.network.eraseIdx position })

def machine (n : ℕ) : Machine (State n) (Action n) (Event n) where
  init := State.initial n
  next := next

end UniversalDB.Group
