import UniversalDB.Model.KVStore
import UniversalDB.Model.PaxosLog

/-! # `ClientRequestHandler` in a `TabletParticipant`

`ε` is the type of endpoint ids of clients. The handler shares the log, the store and the
queue of its participant. -/

namespace UniversalDB

/-- The two callbacks that the constructor registers. -/
inductive Callback where
  | read
  | write
deriving DecidableEq, Repr

/-- A task of `handle_request`, with what its closure captures. -/
structure Task (ε : Type) where
  endpointId : ε
  message : ClientRequest
  retryCount : ℕ

/-- `exception` is what a callback or a task has thrown: the participant has stopped
then. -/
structure TabletParticipant (ε : Type) where
  paxosLog : PaxosLog Callback
  asyncQueue : List (Task ε)
  kvstore : KVStore
  requestIdMap : KeyMap String ℕ
  exception : Option UniversalException

namespace ClientRequestHandler

variable {ε : Type}

def RETRY_LIMIT : ℕ := 3

def WAIT_FOR_PAXOS : ℤ := 100

/-- `AsyncQueue::TERMINATE`. -/
def TERMINATE : ℤ := -1

/-- A participant after the constructor of its handler has registered the callbacks. -/
def new : TabletParticipant ε where
  paxosLog := (PaxosLog.new.addCallback .kRead .read).addCallback .kWrite .write
  asyncQueue := []
  kvstore := .empty
  requestIdMap := KeyMap.empty
  exception := none

/-- A participant whose read has no defined result has stopped: nothing is known of it from
there on. -/
def undefinedRead : UniversalException := ⟨"versions[start - 1]"⟩

/-- Runs a callback. The id is registered before the store is asked, so it stays when the
store throws. -/
def callback (p : TabletParticipant ε) (call : Call Callback) : TabletParticipant ε :=
  match call.callback with
  | .read =>
      let readEntry := call.entry.getRead
      let p' : TabletParticipant ε :=
        { p with
          requestIdMap :=
            p.requestIdMap.insert (StringValue.value readEntry.requestId) call.index }
      match p.kvstore.read (StringValue.value readEntry.key)
          (UInt64Value.value readEntry.timestamp) with
      | .ok (_, kvstore) => { p' with kvstore := kvstore }
      | .error _ => { p' with exception := some undefinedRead }
  | .write =>
      let writeEntry := call.entry.getWrite
      let p' : TabletParticipant ε :=
        { p with
          requestIdMap :=
            p.requestIdMap.insert (StringValue.value writeEntry.requestId) call.index }
      match p.kvstore.write (StringValue.value writeEntry.key)
          (StringValue.value writeEntry.value) (UInt64Value.value writeEntry.timestamp) with
      | .ok kvstore => { p' with kvstore := kvstore }
      | .error exception => { p' with exception := some exception }

/-- What the store returns to a callback, which drops it. -/
def callbackValue (p : TabletParticipant ε) (call : Call Callback) : Option String :=
  match call.callback with
  | .read =>
      let readEntry := call.entry.getRead
      match p.kvstore.read (StringValue.value readEntry.key)
          (UInt64Value.value readEntry.timestamp) with
      | .ok (value, _) => value
      | .error _ => none
  | .write => none

/-- `handle_request` queues a task. -/
def handleRequest (p : TabletParticipant ε) (endpointId : ε) (message : ClientRequest) :
    TabletParticipant ε :=
  { p with asyncQueue := p.asyncQueue ++ [⟨endpointId, message, 0⟩] }

/-- What a run of a task does besides its return value `wait`. -/
structure TaskResult where
  kvstore : KVStore
  response : Option ClientResponse
  proposal : Option PaxosLogEntry
  wait : ℤ

/-- The response of a task that ends without a change. -/
def TaskResult.respond (kvstore : KVStore) (response : ClientResponse) : TaskResult :=
  ⟨kvstore, some response, none, TERMINATE⟩

/-- The response to a request whose id is in the id map. `get()` on an empty optional has
no defined result; the id map only holds populated indices. -/
def fulfilled (p : TabletParticipant ε) (message : ClientRequest) (entryIndex : ℕ) :
    Except UniversalException TaskResult :=
  match message.requestType with
  | .READ =>
      match p.paxosLog.getEntry entryIndex with
      | none => .error ⟨"this->is_initialized()"⟩
      | some entry =>
          let readEntry := entry.getRead
          match p.kvstore.read (StringValue.value readEntry.key)
              (UInt64Value.value readEntry.timestamp) with
          | .ok (some value, kvstore) => .ok (.respond kvstore ⟨some value, .SUCCESS⟩)
          | .ok (none, kvstore) => .ok (.respond kvstore ⟨none, .ERROR⟩)
          | .error _ => .error undefinedRead
  | .WRITE => .ok (.respond p.kvstore ⟨none, .SUCCESS⟩)
  | .UNSET => universalTerminate "Client request type should be READ or WRITE"

/-- The entry that is proposed for a request. -/
def logEntry (message : ClientRequest) : Except UniversalException PaxosLogEntry :=
  match message.requestType with
  | .WRITE => .ok (.write
      { requestId := some message.requestId
        key := some message.key
        value := some (StringValue.value message.value)
        timestamp := some (UInt64Value.value message.timestamp) })
  | .READ => .ok (.read
      { requestId := some message.requestId
        key := some message.key
        timestamp := some (UInt64Value.value message.timestamp) })
  | .UNSET => universalTerminate "Client request type should be READ or WRITE"

/-- `message.timestamp().value() <= lat` for an optional `lat`, which is false when `lat`
is empty. -/
def illegalWrite (kvstore : KVStore) (message : ClientRequest) : Bool :=
  match message.requestType, kvstore.readLat message.key with
  | .WRITE, some lat => UInt64Value.value message.timestamp ≤ lat
  | _, _ => false

/-- One run of the task of a request. -/
def runTask (p : TabletParticipant ε) (task : Task ε) : Except UniversalException TaskResult :=
  match p.requestIdMap task.message.requestId with
  | some entryIndex => fulfilled p task.message entryIndex
  | none =>
      if task.retryCount = RETRY_LIMIT then
        .ok (.respond p.kvstore ⟨none, .ERROR⟩)
      else if illegalWrite p.kvstore task.message then
        .ok (.respond p.kvstore ⟨none, .ERROR⟩)
      else do
        let entry ← logEntry task.message
        return ⟨p.kvstore, none, some entry, WAIT_FOR_PAXOS⟩

end ClientRequestHandler

end UniversalDB
