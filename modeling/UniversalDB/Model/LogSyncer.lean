import UniversalDB.Model.PaxosLog

/-! # `LogSyncer`

The functions of the namespace `_inner` build the messages; the two handlers only pass
them on. -/

namespace UniversalDB

namespace LogSyncer

variable {κ : Type}

def INT_MAX : ℕ := 2 ^ 31 - 1

/-- The loop of `build_sync_request` from position `i` on, with the current subarray and
those behind it. Indices have 64 bits. The position is an `int`: the result is lost when it
overflows at the end of the body. -/
def subarrayLoop (availableIndices : List UInt64) (curSubarray : UInt64 × UInt64)
    (subarrays : List (UInt64 × UInt64)) (i : ℕ) : Option (List (UInt64 × UInt64)) :=
  if _ : i < availableIndices.length then
    if i = INT_MAX then
      none
    else if availableIndices[i - 1] + 1 = availableIndices[i] then
      subarrayLoop availableIndices (curSubarray.1, curSubarray.2 + 1) subarrays (i + 1)
    else
      subarrayLoop availableIndices (availableIndices[i], availableIndices[i])
        (subarrays ++ [curSubarray]) (i + 1)
  else
    some (subarrays ++ [curSubarray])
termination_by availableIndices.length - i

def indexSubArray (subarray : UInt64 × UInt64) : IndexSubArray :=
  ⟨subarray.1.toNat, subarray.2.toNat⟩

/-- `none` stands for an undefined result: the empty list has no first index. -/
def buildSyncRequest (availableIndices : List UInt64) : Option SyncRequest :=
  match availableIndices with
  | [] => none
  | first :: rest =>
      (subarrayLoop (first :: rest) (first, first) [] 1).map fun subarrays =>
        ⟨subarrays.map indexSubArray,
          ((first :: rest).getLast (List.cons_ne_nil _ _)).toNat⟩

/-- The request of `schedule_syncing`. -/
def requestFor (paxosLog : PaxosLog κ) : Option SyncRequest :=
  buildSyncRequest (paxosLog.getAvailableIndices.map UInt64.ofNat)

/-- The entries at the indices from `start` to `stop`, both inclusive. The index of a
response keeps 32 bits. -/
def entriesBetween (paxosLog : PaxosLog κ) (start stop : ℕ) : List PaxosLogEntryWithIndex :=
  (List.range' start (stop + 1 - start)).filterMap fun i =>
    (paxosLog.getEntry i).map fun entry => ⟨UInt32.ofNat i, entry⟩

/-- The loop over the missing indices, which ends at the first subarray behind
`curLastIndex`. -/
def missingEntries (paxosLog : PaxosLog κ) (curLastIndex : ℕ) :
    List IndexSubArray → List PaxosLogEntryWithIndex
  | [] => []
  | subarray :: rest =>
      if subarray.start ≥ curLastIndex then
        []
      else
        entriesBetween paxosLog subarray.start (min curLastIndex subarray.end) ++
          missingEntries paxosLog curLastIndex rest

/-- On natural numbers: with indices of 64 bits the loops do the same up to the largest index,
where they would not end. -/
def buildSyncResponse (paxosLog : PaxosLog κ) (request : SyncRequest) :
    Except UniversalException SyncResponse := do
  let curLastIndex ← paxosLog.nextAvailableIndex
  let missing := missingEntries paxosLog curLastIndex request.missingIndices
  if curLastIndex > request.lastIndex then
    return ⟨missing ++ entriesBetween paxosLog (request.lastIndex + 1) (curLastIndex - 1)⟩
  else
    return ⟨missing⟩

/-- The `setEntry` calls of `handle_sync_response`. -/
def handleSyncResponse (paxosLog : PaxosLog κ) (response : SyncResponse) :
    Except UniversalException (PaxosLog κ × List (Call κ)) :=
  paxosLog.setEntries
    (response.missingEntries.map fun entryWithIndex =>
      (entryWithIndex.index.toNat, entryWithIndex.entry))

end LogSyncer

end UniversalDB
