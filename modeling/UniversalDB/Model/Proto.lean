import Mathlib.Algebra.Ring.Nat
import Mathlib.Data.List.Basic

/-! # Messages

The records of the `.proto` files that the modelled code reads or writes. A wrapper such
as `google.protobuf.StringValue` is an `Option`, and its `value()` is the empty string or
zero when it is not set. Proposal numbers and timestamps are only compared, apart from the
one sum in `next_proposal_number`, and are natural numbers; the two index fields that are
narrower than a log index keep their width. -/

namespace UniversalDB

/-- What `UNIVERSAL_ASSERT_MESSAGE` and `UNIVERSAL_TERMINATE` throw, by the message they
are given. -/
structure UniversalException where
  message : String
deriving DecidableEq, Repr

def universalAssert (expression : Bool) (message : String) : Except UniversalException Unit :=
  if expression then .ok () else .error ⟨message⟩

def universalTerminate {α : Type*} (message : String) : Except UniversalException α :=
  .error ⟨message⟩

/-- `StringValue::value()` of a wrapper that may be missing. -/
def StringValue.value (wrapper : Option String) : String := wrapper.getD ""

/-- `UInt64Value::value()` of a wrapper that may be missing. -/
def UInt64Value.value (wrapper : Option ℕ) : ℕ := wrapper.getD 0

@[simp] theorem StringValue.value_some (s : String) : StringValue.value (some s) = s := rfl

@[simp] theorem UInt64Value.value_some (n : ℕ) : UInt64Value.value (some n) = n := rfl

/-! ## Log entries -/

structure Endpoint where
  url : String
deriving DecidableEq, Repr

/-- `net::EndpointId`, the address of a node. -/
structure EndpointId where
  ipString : String
  port : ℤ
deriving DecidableEq, Repr

structure KeySpaceRange where
  databaseId : String
  tableId : String
  startKey : Option String
  endKey : Option String
deriving DecidableEq, Repr

structure NewKeySpaceSelected where
  slaveGroupId : String
  newRanges : List KeySpaceRange
  generation : ℕ
deriving DecidableEq, Repr

structure KeySpaceCommit where
  slaveGroupId : String
  generation : ℕ
deriving DecidableEq, Repr

structure KeySpaceChanged where
  newRanges : List KeySpaceRange
  generation : ℕ
deriving DecidableEq, Repr

structure Read where
  requestId : Option String
  key : Option String
  timestamp : Option ℕ
deriving DecidableEq, Repr

structure Write where
  requestId : Option String
  key : Option String
  value : Option String
  timestamp : Option ℕ
deriving DecidableEq, Repr

structure ReconfigStarted where
  slaves : List Endpoint
deriving DecidableEq, Repr

/-- The values that appear in a log. `notSet` is the default instance. -/
inductive PaxosLogEntry where
  | notSet
  | keySpaceSelected (content : NewKeySpaceSelected)
  | keySpaceCommit (content : KeySpaceCommit)
  | keySpaceChanged (content : KeySpaceChanged)
  | read (content : Read)
  | write (content : Write)
  | reconfigStarted (content : ReconfigStarted)
  | reconfigFinished
deriving DecidableEq, Repr

inductive EntryContentCase where
  | kNotSet
  | kKeySpaceSelected
  | kKeySpaceCommit
  | kKeySpaceChanged
  | kRead
  | kWrite
  | kReconfigStarted
  | kReconfigFinished
deriving DecidableEq, Repr

namespace PaxosLogEntry

def entryContentCase : PaxosLogEntry → EntryContentCase
  | notSet => .kNotSet
  | keySpaceSelected _ => .kKeySpaceSelected
  | keySpaceCommit _ => .kKeySpaceCommit
  | keySpaceChanged _ => .kKeySpaceChanged
  | read _ => .kRead
  | write _ => .kWrite
  | reconfigStarted _ => .kReconfigStarted
  | reconfigFinished => .kReconfigFinished

/-- The accessor `key_space_selected()`, which is the default instance for any other
content. -/
def getKeySpaceSelected : PaxosLogEntry → NewKeySpaceSelected
  | keySpaceSelected content => content
  | _ => ⟨"", [], 0⟩

/-- The accessor `key_space_commit()`, which is the default instance for any other
content. -/
def getKeySpaceCommit : PaxosLogEntry → KeySpaceCommit
  | keySpaceCommit content => content
  | _ => ⟨"", 0⟩

/-- The accessor `key_space_changed()`, which is the default instance for any other
content. -/
def getKeySpaceChanged : PaxosLogEntry → KeySpaceChanged
  | keySpaceChanged content => content
  | _ => ⟨[], 0⟩

/-- The accessor `read()`, which is the default instance for any other content. -/
def getRead : PaxosLogEntry → Read
  | read content => content
  | _ => ⟨none, none, none⟩

/-- The accessor `write()`, which is the default instance for any other content. -/
def getWrite : PaxosLogEntry → Write
  | write content => content
  | _ => ⟨none, none, none, none⟩

/-- The accessor `reconfig_started()`, which is the default instance for any other
content. -/
def getReconfigStarted : PaxosLogEntry → ReconfigStarted
  | reconfigStarted content => content
  | _ => ⟨[]⟩

end PaxosLogEntry

/-! ## Paxos messages -/

inductive PaxosMessage.Content where
  | notSet
  | prepare (rnd : ℕ)
  | promise (rnd vrnd : ℕ) (vval : PaxosLogEntry)
  | accept (vrnd : ℕ) (vval : PaxosLogEntry)
  | learn (vrnd : ℕ) (vval : PaxosLogEntry)
deriving DecidableEq, Repr

structure PaxosMessage where
  paxosIndex : UInt32
  content : PaxosMessage.Content
deriving DecidableEq, Repr

/-! ## Log synchronisation messages -/

/-- Both ends are inclusive. -/
structure IndexSubArray where
  start : ℕ
  «end» : ℕ
deriving DecidableEq, Repr

structure SyncRequest where
  missingIndices : List IndexSubArray
  lastIndex : ℕ
deriving DecidableEq, Repr

structure PaxosLogEntryWithIndex where
  index : UInt32
  entry : PaxosLogEntry
deriving DecidableEq, Repr

structure SyncResponse where
  missingEntries : List PaxosLogEntryWithIndex
deriving DecidableEq, Repr

/-! ## Client messages -/

inductive ClientRequest.RequestType where
  | UNSET
  | READ
  | WRITE
deriving DecidableEq, Repr

structure ClientRequest where
  requestId : String
  requestType : ClientRequest.RequestType
  databaseId : String
  tableId : String
  key : String
  value : Option String
  timestamp : Option ℕ
deriving DecidableEq, Repr

inductive Code where
  | UNSET
  | SUCCESS
  | ERROR
deriving DecidableEq, Repr

structure ClientResponse where
  value : Option String
  errorCode : Code
deriving DecidableEq, Repr

structure FindKeyRangeRequest where
  databaseId : String
  tableId : String
  key : String
deriving DecidableEq, Repr

/-- A response names a group, or has an error code. -/
structure FindKeyRangeResponse where
  slaveGroupId : String
  errorCode : Code
deriving DecidableEq, Repr

/-! ## Messages between masters and slaves -/

/-- The message of a master, next to the log entry of the same name. -/
structure Message.NewKeySpaceSelected where
  newRanges : List KeySpaceRange
  generation : ℕ
deriving DecidableEq, Repr

/-- The message of a slave, next to the log entry of the same name. -/
structure Message.KeySpaceChanged where
  generation : ℕ
deriving DecidableEq, Repr

/-! ## Tablet messages -/

inductive TabletMessage.Content where
  | notSet
  | paxosMessage (message : PaxosMessage)
  | syncRequest (request : SyncRequest)
  | syncResponse (response : SyncResponse)
deriving DecidableEq, Repr

structure TabletMessage where
  range : KeySpaceRange
  content : TabletMessage.Content
deriving DecidableEq, Repr

end UniversalDB
