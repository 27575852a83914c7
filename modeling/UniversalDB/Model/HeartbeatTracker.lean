import Mathlib.Data.String.Basic
import UniversalDB.Library.OrderedMap
import UniversalDB.Model.Proto

/-! # `HeartbeatTracker` -/

namespace UniversalDB

/-- `EndpointId::operator<`, by which `std::map` tells endpoints apart, compares the
addresses only. -/
abbrev EndpointId.address (e : EndpointId) : String := e.ipString

structure HeartbeatTracker where
  heartbeatCount : OrderedMap EndpointId.address UInt32

namespace HeartbeatTracker

def HEARTBEAT_FAILURE_COUNT : UInt32 := 4

/-- In milliseconds. -/
def HEARTBEAT_SEND_PERIOD : ℕ := 1000

def new : HeartbeatTracker := ⟨.empty⟩

def incrementCounts (t : HeartbeatTracker) : HeartbeatTracker :=
  ⟨t.heartbeatCount.mapValues fun _ count => count + 1⟩

def handleHeartbeat (t : HeartbeatTracker) (endpointId : EndpointId) : HeartbeatTracker :=
  match t.heartbeatCount.find endpointId with
  | none => ⟨t.heartbeatCount.insert endpointId 0⟩
  | some _ => ⟨t.heartbeatCount.assign endpointId 0⟩

/-- The loop of `alive_endpoints`: the endpoints it collects, and the entries it does not
erase. -/
def collectAlive :
    List (EndpointId × UInt32) → List EndpointId × List (EndpointId × UInt32)
  | [] => ([], [])
  | (endpoint, count) :: rest =>
      let (endpoints, kept) := collectAlive rest
      if count ≥ HEARTBEAT_FAILURE_COUNT then (endpoints, kept)
      else (endpoint :: endpoints, (endpoint, count) :: kept)

theorem collectAlive_eq (entries : List (EndpointId × UInt32)) :
    collectAlive entries =
      ((entries.filter fun x => x.2 < HEARTBEAT_FAILURE_COUNT).map Prod.fst,
        entries.filter fun x => x.2 < HEARTBEAT_FAILURE_COUNT) := by
  induction entries with
  | nil => rfl
  | cons x rest ih =>
      simp only [collectAlive, ih]
      split
      · rename_i hge
        have hnot : ¬ x.2 < HEARTBEAT_FAILURE_COUNT := UInt32.not_lt.mpr hge
        rw [List.filter_cons_of_neg (by simpa using hnot)]
      · rename_i hlt
        have hlt' : x.2 < HEARTBEAT_FAILURE_COUNT := UInt32.not_le.mp hlt
        rw [List.filter_cons_of_pos (by simpa using hlt')]
        rfl

theorem collectAlive_sublist (entries : List (EndpointId × UInt32)) :
    (collectAlive entries).2.Sublist entries := by
  rw [collectAlive_eq]
  exact List.filter_sublist

def aliveEndpoints (t : HeartbeatTracker) : List EndpointId × HeartbeatTracker :=
  ((collectAlive t.heartbeatCount.entries).1,
    ⟨t.heartbeatCount.sublist _ (collectAlive_sublist t.heartbeatCount.entries)⟩)

def leaderEndpointId (t : HeartbeatTracker) : Option EndpointId × HeartbeatTracker :=
  let (endpoints, t') := t.aliveEndpoints
  (endpoints.head?, t')

/-! ## Sequences of calls -/

inductive Call where
  | handleHeartbeat (endpointId : EndpointId)
  | incrementCounts
  | aliveEndpoints
  | leaderEndpointId
deriving DecidableEq, Repr

inductive Answer where
  | none
  | aliveEndpoints (endpoints : List EndpointId)
  | leaderEndpointId (leader : Option EndpointId)
deriving DecidableEq, Repr

def call (t : HeartbeatTracker) : Call → Answer × HeartbeatTracker
  | .handleHeartbeat endpointId => (.none, t.handleHeartbeat endpointId)
  | .incrementCounts => (.none, t.incrementCounts)
  | .aliveEndpoints =>
      let (endpoints, t') := t.aliveEndpoints
      (.aliveEndpoints endpoints, t')
  | .leaderEndpointId =>
      let (leader, t') := t.leaderEndpointId
      (.leaderEndpointId leader, t')

/-- The tracker after a sequence of calls. -/
def after (t : HeartbeatTracker) (calls : List Call) : HeartbeatTracker :=
  calls.foldl (fun t c => (t.call c).2) t

/-- The answer to each call of a sequence. -/
def answers (t : HeartbeatTracker) : List Call → List Answer
  | [] => []
  | c :: calls => (t.call c).1 :: (t.call c).2.answers calls

end HeartbeatTracker

end UniversalDB
