import UniversalDB.Library.TransitionSystem
import UniversalDB.Model.HeartbeatTracker

/-! # `FailureDetector`

The failure detectors of the nodes of a group, which is the latest config of all of them.
`endpoint` gives the address at which the others see a node. Times are in milliseconds. The
timer of a node runs its callback at `due` or later, and heartbeats may arrive in any order,
also the ones that a node sends itself. -/

namespace UniversalDB.FailureDetector

open HeartbeatTracker (HEARTBEAT_SEND_PERIOD)

structure Node where
  heartbeatTracker : HeartbeatTracker
  due : ℕ

structure Packet (n : ℕ) where
  src : Fin n
  dst : Fin n
  sentAt : ℕ
deriving DecidableEq, Repr

/-- A node that does not run has not been started, or has crashed. -/
structure State (n : ℕ) where
  now : ℕ
  nodes : Fin n → Option Node
  network : List (Packet n)

variable {n : ℕ}

/-- `schedule_repeated` in the constructor waits a period before its first call. -/
def Node.new (now : ℕ) : Node := ⟨.new, now + HEARTBEAT_SEND_PERIOD⟩

/-- `Connections::broadcast` of the heartbeat message. -/
def broadcast (now : ℕ) (src : Fin n) : List (Packet n) :=
  (List.finRange n).map fun dst => ⟨src, dst, now⟩

/-- What the callback of `schedule_heartbeat` does to its node. The timer is set again when
the callback returns. -/
def Node.heartbeat (node : Node) (now : ℕ) : Node :=
  ⟨node.heartbeatTracker.incrementCounts, now + HEARTBEAT_SEND_PERIOD⟩

inductive Action (n : ℕ) where
  | advance (duration : ℕ)
  | start (node : Fin n)
  | crash (node : Fin n)
  | heartbeat (node : Fin n)
  | deliver (position : ℕ)
  | drop (position : ℕ)
  | aliveEndpoints (node : Fin n)
  | leaderEndpointId (node : Fin n)

/-- An answer of the tracker of a node, and when it was given. -/
inductive Event (n : ℕ) where
  | aliveEndpoints (node : Fin n) (time : ℕ) (endpoints : List EndpointId)
  | leaderEndpointId (node : Fin n) (time : ℕ) (leader : Option EndpointId)
deriving DecidableEq

def State.setNode (s : State n) (i : Fin n) (node : Option Node) : State n :=
  { s with nodes := Function.update s.nodes i node }

variable (endpoint : Fin n → EndpointId)

def next (s : State n) : Action n → Option (List (Event n) × State n)
  | .advance duration => some ([], { s with now := s.now + duration })
  | .start i =>
      match s.nodes i with
      | some _ => none
      | none => some ([], s.setNode i (some (Node.new s.now)))
  | .crash i =>
      match s.nodes i with
      | none => none
      | some _ => some ([], s.setNode i none)
  | .heartbeat i =>
      match s.nodes i with
      | none => none
      | some node =>
          if node.due ≤ s.now then
            some ([], { s.setNode i (some (node.heartbeat s.now)) with
              network := s.network ++ broadcast s.now i })
          else none
  | .deliver position =>
      match s.network[position]? with
      | none => none
      | some packet =>
          let rest := { s with network := s.network.eraseIdx position }
          match s.nodes packet.dst with
          | none => some ([], rest)
          | some node =>
              some ([], rest.setNode packet.dst (some { node with
                heartbeatTracker :=
                  node.heartbeatTracker.handleHeartbeat (endpoint packet.src) }))
  | .drop position =>
      match s.network[position]? with
      | none => none
      | some _ => some ([], { s with network := s.network.eraseIdx position })
  | .aliveEndpoints i =>
      match s.nodes i with
      | none => none
      | some node =>
          let (endpoints, tracker) := node.heartbeatTracker.aliveEndpoints
          some ([.aliveEndpoints i s.now endpoints],
            s.setNode i (some { node with heartbeatTracker := tracker }))
  | .leaderEndpointId i =>
      match s.nodes i with
      | none => none
      | some node =>
          let (leader, tracker) := node.heartbeatTracker.leaderEndpointId
          some ([.leaderEndpointId i s.now leader],
            s.setNode i (some { node with heartbeatTracker := tracker }))

def machine : Machine (State n) (Action n) (Event n) where
  init := ⟨0, fun _ => none, []⟩
  next := next endpoint

end UniversalDB.FailureDetector
