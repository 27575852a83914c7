import UniversalDB.Library.UnorderedMap
import UniversalDB.Model.KeySpaceRange
import UniversalDB.Model.PaxosLog

/-! # `GroupConfigManager` and `KeySpaceManager`

The two managers of a `DataMaster`. Both have one entry for each slave group, which the
constructor of the master registers with both. A task that scans a map is given the order
in which it does so. -/

namespace UniversalDB

structure SlaveGroupId where
  id : String
deriving DecidableEq, Repr

/-! ## The slaves of a group -/

inductive ConfigState where
  | config (slaves : List EndpointId) (generation : ℕ)
  | newConfig (slaves newSlaves : List EndpointId) (generation : ℕ)
deriving DecidableEq, Repr

def ConfigState.slaves : ConfigState → List EndpointId
  | config slaves _ => slaves
  | newConfig slaves _ _ => slaves

abbrev GroupConfigManager := UnorderedMap SlaveGroupId ConfigState

namespace GroupConfigManager

def setFirstConfig (m : GroupConfigManager) (groupId : SlaveGroupId)
    (slaveEndpoints : List EndpointId) : GroupConfigManager :=
  m.insertNew groupId (.config slaveEndpoints 0)

/-- An unknown group has no slaves. -/
def getEndpoints (m : GroupConfigManager) (groupId : SlaveGroupId) : List EndpointId :=
  match m.lookup groupId with
  | some config => config.slaves
  | none => []

/-- The first group in the order of the scan that has the endpoint. -/
def getGroupId (order : List ((_ : SlaveGroupId) × ConfigState)) (endpointId : EndpointId) :
    Option SlaveGroupId :=
  match order.find? fun e => endpointId ∈ e.2.slaves with
  | some e => some e.1
  | none => none

end GroupConfigManager

/-! ## The key space of a group -/

namespace KeySpaceManager

structure KeySpace where
  ranges : List Server.KeySpaceRange
  generation : ℕ
deriving DecidableEq, Repr

structure NewKeySpace where
  ranges : List Server.KeySpaceRange
  newRanges : List Server.KeySpaceRange
  generation : ℕ
deriving DecidableEq, Repr

inductive KeySpaceState where
  | keySpace (keySpace : KeySpace)
  | newKeySpace (newKeySpace : NewKeySpace)
deriving DecidableEq, Repr

abbrev SlaveGroupRanges := UnorderedMap SlaveGroupId KeySpaceState

/-- The two callbacks that the constructor registers. -/
inductive Callback where
  | keySpaceSelected
  | keySpaceCommit
deriving DecidableEq, Repr

/-- The tasks of `handle_find_key` and `handle_key_space_changed`, with what their closures
capture. -/
structure FindKeyTask where
  endpointId : EndpointId
  message : FindKeyRangeRequest
  retryCount : ℕ
deriving DecidableEq, Repr

structure KeySpaceChangedTask where
  endpointId : EndpointId
  message : Message.KeySpaceChanged
deriving DecidableEq, Repr

/-- A message that is sent to a slave. -/
structure Sent where
  endpointId : EndpointId
  message : Message.NewKeySpaceSelected
deriving DecidableEq, Repr

def RETRY_LIMIT : ℕ := 3

def WAIT_FOR_COMMIT_INSERTED : ℤ := 100

def WAIT_FOR_COMMIT : ℤ := 100

def WAIT_FOR_FREE : ℤ := 100

def WAIT_FOR_NEW_KEY_SPACE : ℤ := 100

/-- `AsyncQueue::TERMINATE`. -/
def TERMINATE : ℤ := -1

/-- Generations are of type `uint32_t`. -/
def nextGeneration (generation : ℕ) : ℕ := (generation + 1) % 2 ^ 32

def setFirstConfig (m : SlaveGroupRanges) (groupId : SlaveGroupId) : SlaveGroupRanges :=
  m.insertNew groupId (.keySpace ⟨[], 0⟩)

def buildNewKeySpaceSelectedMessage (keySpace : NewKeySpace) : Message.NewKeySpaceSelected where
  newRanges := keySpace.newRanges.map Server.buildRange
  generation := keySpace.generation

def buildNewKeySpaceSelectedPaxos (groupId : SlaveGroupId)
    (newRanges : List Server.KeySpaceRange) (generation : ℕ) : NewKeySpaceSelected where
  slaveGroupId := groupId.id
  newRanges := newRanges.map Server.buildRange
  generation := generation

/-- The broadcast of a new key space to `endpoints[0]` of its group. -/
def sendNewKeySpace (configManager : GroupConfigManager) (groupId : SlaveGroupId)
    (keySpace : NewKeySpace) : List Sent :=
  match configManager.getEndpoints groupId with
  | [] => []
  | endpointId :: _ => [⟨endpointId, buildNewKeySpaceSelectedMessage keySpace⟩]

/-! ## Callbacks -/

def selectedCallback (configManager : GroupConfigManager) (slaveGroupRanges : SlaveGroupRanges)
    (entry : PaxosLogEntry) : Except UniversalException (SlaveGroupRanges × List Sent) :=
  let keySpaceSelected := entry.getKeySpaceSelected
  let groupId : SlaveGroupId := ⟨keySpaceSelected.slaveGroupId⟩
  match slaveGroupRanges.lookup groupId with
  | none => .error ⟨"There should already be a slave group before a NewKeySpaceSelected " ++
      "message is inserted for that group"⟩
  | some (.newKeySpace _) => universalTerminate ("When a NewKeySpaceSelected paxos message " ++
      "is inserted, the key space state should be KeySpace, not NewKeySpace")
  | some (.keySpace keySpace) => do
      universalAssert (nextGeneration keySpace.generation = keySpaceSelected.generation)
        "The generation of the NewKeySpaceSelected should be one greater than the old"
      let newKeySpace : NewKeySpace :=
        { ranges := keySpace.ranges
          newRanges := keySpaceSelected.newRanges.map Server.convert
          generation := keySpaceSelected.generation }
      return (AList.insert groupId (.newKeySpace newKeySpace) slaveGroupRanges,
        sendNewKeySpace configManager groupId newKeySpace)

def commitCallback (slaveGroupRanges : SlaveGroupRanges) (entry : PaxosLogEntry) :
    Except UniversalException (SlaveGroupRanges × List Sent) :=
  let keySpaceCommit := entry.getKeySpaceCommit
  let groupId : SlaveGroupId := ⟨keySpaceCommit.slaveGroupId⟩
  match slaveGroupRanges.lookup groupId with
  | none => .error ⟨"There should already be a slave group before a KeySpaceCommit message " ++
      "is inserted for that group"⟩
  | some (.keySpace _) => universalTerminate ("When a KeySpaceCommit paxos message is " ++
      "inserted, the key space state should be NewKeySpace, not KeySpace")
  | some (.newKeySpace newKeySpace) => do
      universalAssert (newKeySpace.generation = keySpaceCommit.generation)
        ("The generation of the KeySpaceCommit should be equals to that of the current " ++
          "new key space")
      return (AList.insert groupId
        (.keySpace ⟨newKeySpace.newRanges, newKeySpace.generation⟩) slaveGroupRanges, [])

def run (configManager : GroupConfigManager) (slaveGroupRanges : SlaveGroupRanges)
    (call : Call Callback) : Except UniversalException (SlaveGroupRanges × List Sent) :=
  match call.callback with
  | .keySpaceSelected => selectedCallback configManager slaveGroupRanges call.entry
  | .keySpaceCommit => commitCallback slaveGroupRanges call.entry

/-! ## Tasks -/

/-- What the search of a find-key task stops at. -/
inductive Found where
  | keySpace (groupId : SlaveGroupId)
  | newKeySpace (groupId : SlaveGroupId) (keySpace : NewKeySpace)
deriving DecidableEq

def withinRange (message : FindKeyRangeRequest) (range : Server.KeySpaceRange) : Bool :=
  Server.withinRange range message.databaseId message.tableId message.key

/-- The search for a group with the key. -/
def search (message : FindKeyRangeRequest)
    (order : List ((_ : SlaveGroupId) × KeySpaceState)) : Option Found :=
  order.findSome? fun ⟨groupId, v⟩ =>
    match v with
    | .keySpace keySpace =>
        if keySpace.ranges.any (withinRange message) then some (.keySpace groupId) else none
    | .newKeySpace keySpace =>
        if keySpace.newRanges.any (withinRange message) then
          some (.newKeySpace groupId keySpace)
        else none

/-- The first group that is not in the progress of being assigned a range. -/
def firstFree (order : List ((_ : SlaveGroupId) × KeySpaceState)) :
    Option (SlaveGroupId × KeySpace) :=
  order.findSome? fun ⟨groupId, v⟩ =>
    match v with
    | .keySpace keySpace => some (groupId, keySpace)
    | .newKeySpace _ => none

/-- What a run of a find-key task does besides its return value `wait`. -/
structure FindKeyResult where
  response : Option FindKeyRangeResponse
  sent : List Sent
  proposal : Option PaxosLogEntry
  retryCount : ℕ
  wait : ℤ

/-- One run of the task of `handle_find_key`. -/
def runFindKey (configManager : GroupConfigManager)
    (order : List ((_ : SlaveGroupId) × KeySpaceState)) (task : FindKeyTask) : FindKeyResult :=
  match search task.message order with
  | some (.keySpace groupId) =>
      ⟨some ⟨groupId.id, .UNSET⟩, [], none, task.retryCount, TERMINATE⟩
  | some (.newKeySpace groupId keySpace) =>
      ⟨none, sendNewKeySpace configManager groupId keySpace, none, task.retryCount,
        WAIT_FOR_COMMIT_INSERTED⟩
  | none =>
      if task.retryCount = RETRY_LIMIT then
        ⟨some ⟨"", .ERROR⟩, [], none, task.retryCount, TERMINATE⟩
      else
        match firstFree order with
        | none => ⟨none, [], none, task.retryCount, WAIT_FOR_FREE⟩
        | some (groupId, keySpace) =>
            let newRanges := keySpace.ranges ++
              [⟨task.message.databaseId, task.message.tableId, none, none⟩]
            ⟨none, [], some (.keySpaceSelected (buildNewKeySpaceSelectedPaxos groupId newRanges
              (nextGeneration keySpace.generation))), task.retryCount + 1,
              WAIT_FOR_NEW_KEY_SPACE⟩

/-- One run of the task of `handle_key_space_changed`: what it proposes and what it
returns. -/
def runKeySpaceChanged (order : List ((_ : SlaveGroupId) × ConfigState))
    (slaveGroupRanges : SlaveGroupRanges) (task : KeySpaceChangedTask) :
    Option PaxosLogEntry × ℤ :=
  match GroupConfigManager.getGroupId order task.endpointId with
  | none => (none, TERMINATE)
  | some groupId =>
      match slaveGroupRanges.lookup groupId with
      | some (.newKeySpace newKeySpace) =>
          if newKeySpace.generation = task.message.generation then
            (some (.keySpaceCommit ⟨groupId.id, task.message.generation⟩), WAIT_FOR_COMMIT)
          else (none, TERMINATE)
      | _ => (none, TERMINATE)

end KeySpaceManager

end UniversalDB
