import UniversalDB.Model.PaxosLog

/-! # `PaxosConfigManager`

The manager shares the log of its owner, on which its constructor registers a callback. -/

namespace UniversalDB

structure IndexAndConfig where
  index : ℕ
  slaves : List EndpointId
deriving DecidableEq, Repr

/-- The constructor and the callback only ever add to the timeline, which is never empty. -/
structure PaxosConfigManager where
  configTimeline : List IndexAndConfig
  ne_nil : configTimeline ≠ []

namespace PaxosConfigManager

def new (index : ℕ) (slaves : List EndpointId) : PaxosConfigManager where
  configTimeline := [⟨index, slaves⟩]
  ne_nil := List.cons_ne_nil _ _

/-- `_config_timeline.back()`. -/
def back (m : PaxosConfigManager) : IndexAndConfig :=
  m.configTimeline.getLast m.ne_nil

def pushBack (m : PaxosConfigManager) (c : IndexAndConfig) : PaxosConfigManager where
  configTimeline := m.configTimeline ++ [c]
  ne_nil := by simp

/-- The endpoints a `ReconfigStarted` entry lists. -/
def newSlaves (reconfigMessage : ReconfigStarted) : List EndpointId :=
  reconfigMessage.slaves.map fun slave => ⟨slave.url, 0⟩

/-- The callback for `kReconfigStarted`. The new configuration is for the next index. -/
def callback (m : PaxosConfigManager) (index : ℕ) (entry : PaxosLogEntry) :
    Except UniversalException PaxosConfigManager := do
  universalAssert (index > m.back.index) "Index should always be ascending."
  return m.pushBack ⟨(index + 1) % 2 ^ 64, newSlaves entry.getReconfigStarted⟩

/-- The last configuration at or before `index`, walking back from the end of a timeline. -/
def searchBack (configTimeline : List IndexAndConfig) (index : ℕ) : Option IndexAndConfig :=
  configTimeline.reverse.find? fun c => ¬ c.index > index

/-- `int i = size - 1`. -/
def startPosition (size : ℕ) : ℤ := Int.bmod (size - 1) (2 ^ 32)

/-- The loop walks back from the start position, which may be negative. -/
def config (m : PaxosConfigManager) (index : ℕ) :
    Except UniversalException (List EndpointId) :=
  let i := startPosition m.configTimeline.length
  match searchBack (m.configTimeline.take (i + 1).toNat) index with
  | some c => .ok c.slaves
  | none => .error ⟨"Config should only be requested for an index governed by this " ++
      "Paxos timeline."⟩

def latestConfig (m : PaxosConfigManager) : List EndpointId := m.back.slaves

/-- The callback as a call of the log. It sends nothing. -/
def run (m : PaxosConfigManager) (call : Call Unit) :
    Except UniversalException (PaxosConfigManager × List Empty) := do
  let m' ← m.callback call.index call.entry
  return (m', [])

end PaxosConfigManager

/-- A log with the manager that has registered its callback on it. -/
structure ConfiguredLog where
  paxosLog : PaxosLog Unit
  paxosConfigManager : PaxosConfigManager

namespace ConfiguredLog

def new (slaves : List EndpointId) : ConfiguredLog where
  paxosLog := PaxosLog.new.addCallback .kReconfigStarted ()
  paxosConfigManager := .new 0 slaves

/-- `PaxosLog::set_entry`, which runs the callback. -/
def setEntry (c : ConfiguredLog) (index : ℕ) (entry : PaxosLogEntry) :
    Except UniversalException ConfiguredLog := do
  let (paxosLog, calls) ← c.paxosLog.setEntry index entry
  let (paxosConfigManager, _) ← PaxosLog.runCalls PaxosConfigManager.run
    c.paxosConfigManager calls
  return ⟨paxosLog, paxosConfigManager⟩

def setEntries (c : ConfiguredLog) :
    List (ℕ × PaxosLogEntry) → Except UniversalException ConfiguredLog
  | [] => return c
  | (index, entry) :: rest => do
      let c' ← c.setEntry index entry
      c'.setEntries rest

end ConfiguredLog

end UniversalDB
