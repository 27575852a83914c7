import UniversalDB.Model.LogSyncer

/-! # The loops of `build_sync_response` on machine words

Indices have 64 bits and wrap around at the end of the range, where a loop up to the largest
index goes on. Below it the function does what `LogSyncer.buildSyncResponse` does. -/

namespace UniversalDB.LogSyncer.Words

variable {κ : Type}

inductive Fault where
  | exception (exception : UniversalException)
  | indexOverflow
  | outOfFuel
deriving DecidableEq, Repr

/-- A loop over indices from `i` on, while `condition` holds of them. The index of a
response keeps 32 bits. -/
def entryLoop (paxosLog : PaxosLog κ) (condition : UInt64 → Bool) :
    ℕ → UInt64 → Except Fault (List PaxosLogEntryWithIndex)
  | 0, _ => .error .outOfFuel
  | fuel + 1, i =>
      if condition i then do
        let entries := (paxosLog.getEntry i.toNat).toList.map fun entry =>
          ⟨UInt32.ofNat i.toNat, entry⟩
        let rest ←
          if i + 1 = 0 then .error .indexOverflow
          else entryLoop paxosLog condition fuel (i + 1)
        return entries ++ rest
      else
        return []

/-- `std::min`. -/
def min (a b : UInt64) : UInt64 := if b < a then b else a

def missingEntries (paxosLog : PaxosLog κ) (fuel : ℕ) (curLastIndex : UInt64) :
    List IndexSubArray → Except Fault (List PaxosLogEntryWithIndex)
  | [] => .ok []
  | subarray :: rest =>
      let start := UInt64.ofNat subarray.start
      if start ≥ curLastIndex then .ok []
      else do
        let stop := min curLastIndex (UInt64.ofNat subarray.end)
        let entries ← entryLoop paxosLog (fun i => i ≤ stop) fuel start
        let others ← missingEntries paxosLog fuel curLastIndex rest
        return entries ++ others

/-- Every loop over indices is given the same fuel. -/
def buildSyncResponse (paxosLog : PaxosLog κ) (fuel : ℕ) (request : SyncRequest) :
    Except Fault SyncResponse :=
  match paxosLog.nextAvailableIndex with
  | .error exception => .error (.exception exception)
  | .ok index => do
      let curLastIndex := UInt64.ofNat index
      let lastIndex := UInt64.ofNat request.lastIndex
      let missing ← missingEntries paxosLog fuel curLastIndex request.missingIndices
      if curLastIndex > lastIndex then
        let entries ← entryLoop paxosLog (fun i => i < curLastIndex) fuel (lastIndex + 1)
        return ⟨missing ++ entries⟩
      else
        return ⟨missing⟩

end UniversalDB.LogSyncer.Words
