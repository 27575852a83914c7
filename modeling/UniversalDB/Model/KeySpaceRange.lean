import UniversalDB.Model.Proto

/-! # `KeySpaceRange`

The class of `server/KeySpaceRange.h`, next to the message of the same name. Strings are
compared by code points, which is the order of the bytes of their UTF-8 encodings. -/

namespace UniversalDB

namespace Server

structure KeySpaceRange where
  databaseId : String
  tableId : String
  startKey : Option String
  endKey : Option String
deriving DecidableEq, Repr

/-- The template `within_range`, on the three fields that it reads of a message. -/
def withinRange (range : KeySpaceRange) (databaseId tableId key : String) : Bool :=
  if range.databaseId ≠ databaseId then false
  else if range.tableId ≠ tableId then false
  else if range.startKey.any fun startKey => startKey > key then false
  else if range.endKey.any fun endKey => endKey ≤ key then false
  else true

/-- Converts a message into an object. -/
def convert (range : UniversalDB.KeySpaceRange) : KeySpaceRange where
  databaseId := range.databaseId
  tableId := range.tableId
  startKey := if range.startKey.isSome then some (StringValue.value range.startKey) else none
  endKey := if range.endKey.isSome then some (StringValue.value range.endKey) else none

/-- Populates a fresh message with the contents of an object. -/
def buildRange (range : KeySpaceRange) : UniversalDB.KeySpaceRange where
  databaseId := range.databaseId
  tableId := range.tableId
  startKey := match range.startKey with
    | some startKey => some startKey
    | none => none
  endKey := match range.endKey with
    | some endKey => some endKey
    | none => none

/-- A range goes through a message unchanged: an absent key stays absent, and an empty one
stays empty. -/
@[simp] theorem convert_buildRange (range : KeySpaceRange) :
    convert (buildRange range) = range := by
  obtain ⟨databaseId, tableId, startKey, endKey⟩ := range
  cases startKey <;> cases endKey <;> rfl

@[simp] theorem buildRange_convert (range : UniversalDB.KeySpaceRange) :
    buildRange (convert range) = range := by
  obtain ⟨databaseId, tableId, startKey, endKey⟩ := range
  cases startKey <;> cases endKey <;> rfl

end Server

/-- `TabletId` is another name for the class. -/
abbrev TabletId := Server.KeySpaceRange

end UniversalDB
