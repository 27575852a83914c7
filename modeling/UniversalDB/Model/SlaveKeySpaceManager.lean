import UniversalDB.Model.PaxosLog
import UniversalDB.Model.TabletParticipantManager

/-! # `SlaveKeySpaceManager` -/

namespace UniversalDB

/-- `_ranges` with its generation, and the manager of the participants, which the callback
tells of new ranges. -/
structure SlaveKeySpaceManager where
  ranges : List Server.KeySpaceRange
  generation : ℕ
  participantManager : TabletParticipantManager

namespace SlaveKeySpaceManager

def WAIT_FOR_PAXOS : ℤ := 100

/-- `AsyncQueue::TERMINATE`. -/
def TERMINATE : ℤ := -1

def new : SlaveKeySpaceManager where
  ranges := []
  generation := 0
  participantManager := .new

/-- Generations are of type `uint32_t`. -/
def nextGeneration (generation : ℕ) : ℕ := (generation + 1) % 2 ^ 32

/-- The callback for `kKeySpaceChanged`, with the message it sends to a master. -/
def callback (m : SlaveKeySpaceManager) (entry : PaxosLogEntry) :
    Except UniversalException (SlaveKeySpaceManager × List Message.KeySpaceChanged) := do
  let changedMessage := entry.getKeySpaceChanged
  universalAssert (changedMessage.generation = nextGeneration m.generation)
    "The generation of the KeySpaceChanged message should be 1 greater than the current."
  let ranges := changedMessage.newRanges.map Server.convert
  let (participantManager, _) := m.participantManager.handleKeySpaceChange ranges
  return (⟨ranges, changedMessage.generation, participantManager⟩,
    [⟨changedMessage.generation⟩])

def run (m : SlaveKeySpaceManager) (call : Call Unit) :
    Except UniversalException (SlaveKeySpaceManager × List Message.KeySpaceChanged) :=
  m.callback call.entry

/-- The range that is added for a range of the message, field by field. -/
def rangeToAdd (range : KeySpaceRange) : KeySpaceRange where
  databaseId := range.databaseId
  tableId := range.tableId
  startKey := match range.startKey with
    | some startKey => some startKey
    | none => none
  endKey := match range.endKey with
    | some endKey => some endKey
    | none => none

/-- What a run of a task does besides its return value `wait`. -/
structure TaskResult where
  reply : Option Message.KeySpaceChanged
  proposal : Option PaxosLogEntry
  wait : ℤ

/-- One run of the task of `handle_key_space_change`. -/
def runTask (m : SlaveKeySpaceManager) (message : Message.NewKeySpaceSelected) : TaskResult :=
  if nextGeneration m.generation < message.generation then
    ⟨none, none, TERMINATE⟩
  else if nextGeneration m.generation = message.generation then
    ⟨none, some (.keySpaceChanged ⟨message.newRanges.map rangeToAdd, message.generation⟩),
      WAIT_FOR_PAXOS⟩
  else if m.generation = message.generation then
    ⟨some ⟨message.generation⟩, none, TERMINATE⟩
  else
    ⟨none, none, TERMINATE⟩

@[simp] theorem rangeToAdd_eq (range : KeySpaceRange) : rangeToAdd range = range := by
  obtain ⟨databaseId, tableId, startKey, endKey⟩ := range
  cases startKey <;> cases endKey <;> rfl

end SlaveKeySpaceManager

end UniversalDB
