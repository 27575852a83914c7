import UniversalDB.Model.PaxosLog
import UniversalDB.Model.SinglePaxosHandler

/-! # `MultiPaxosHandler` -/

namespace UniversalDB

structure MultiPaxosHandler (ε : Type) where
  instanceProvider : ℕ → SinglePaxosHandler ε
  paxosInstances : KeyMap ℕ (SinglePaxosHandler ε)

namespace MultiPaxosHandler

variable {ε κ : Type}

def new (instanceProvider : ℕ → SinglePaxosHandler ε) : MultiPaxosHandler ε where
  instanceProvider := instanceProvider
  paxosInstances := KeyMap.empty

/-- `get_instance` creates a missing instance, which stays in the map when `setInstance`
writes back what a handler function made of it. -/
def getInstance (m : MultiPaxosHandler ε) (index : ℕ) : SinglePaxosHandler ε :=
  (m.paxosInstances index).getD (m.instanceProvider index)

def setInstance (m : MultiPaxosHandler ε) (index : ℕ) (h : SinglePaxosHandler ε) :
    MultiPaxosHandler ε :=
  { m with paxosInstances := m.paxosInstances.assign index h }

def propose (m : MultiPaxosHandler ε) (paxosLog : PaxosLog κ) (draw : ℕ)
    (entry : PaxosLogEntry) :
    Except UniversalException (MultiPaxosHandler ε × List (Effect ε)) := do
  let index ← paxosLog.nextAvailableIndex
  let (h, effects) := (m.getInstance index).propose draw entry
  return (m.setInstance index h, effects)

/-- The branches of `handle_incoming_message` over the content of a message. -/
def dispatch (h : SinglePaxosHandler ε) (endpointId : ε) :
    PaxosMessage.Content → Except UniversalException (SinglePaxosHandler ε × List (Effect ε))
  | .prepare rnd => .ok (h.prepare endpointId rnd)
  | .promise rnd vrnd vval => h.promise rnd vrnd vval
  | .accept vrnd vval => .ok (h.accept vrnd vval)
  | .learn vrnd vval => .ok (h.learn vrnd vval)
  | .notSet => .ok (h, [])

def handleIncomingMessage (m : MultiPaxosHandler ε) (endpointId : ε)
    (paxosMessage : PaxosMessage) :
    Except UniversalException (MultiPaxosHandler ε × List (Effect ε)) := do
  let index := paxosMessage.paxosIndex.toNat
  let (h, effects) ← dispatch (m.getInstance index) endpointId paxosMessage.content
  return (m.setInstance index h, effects)

end MultiPaxosHandler

end UniversalDB
