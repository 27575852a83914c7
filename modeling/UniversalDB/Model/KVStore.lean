import Mathlib.Data.Int.Basic
import Mathlib.Order.Basic
import UniversalDB.Library.KeyMap
import UniversalDB.Model.Proto

/-! # `KVStore` -/

namespace UniversalDB

structure VersionEntry where
  timestamp : ℕ
  value : String
deriving DecidableEq, Repr

/-- The versions of a key and its last access timestamp. -/
structure MultiVersionEntry where
  versions : List VersionEntry
  lat : ℕ
  versions_ne_nil : versions ≠ []
  ascending : versions.Pairwise fun v w => v.timestamp < w.timestamp
  le_lat : ∀ v ∈ versions, v.timestamp ≤ lat

namespace MultiVersionEntry

/-- The entry of a key that is written for the first time. -/
def first (value : String) (timestamp : ℕ) : MultiVersionEntry where
  versions := [⟨timestamp, value⟩]
  lat := timestamp
  versions_ne_nil := by simp
  ascending := List.pairwise_singleton _ _
  le_lat := by simp

def push (entry : MultiVersionEntry) (value : String) (timestamp : ℕ)
    (h : entry.lat < timestamp) : MultiVersionEntry where
  versions := entry.versions ++ [⟨timestamp, value⟩]
  lat := timestamp
  versions_ne_nil := by simp
  ascending := by
    rw [List.pairwise_append]
    refine ⟨entry.ascending, List.pairwise_singleton _ _, ?_⟩
    intro v hv w hw
    rw [List.mem_singleton.mp hw]
    exact (entry.le_lat v hv).trans_lt h
  le_lat := by
    intro v hv
    rcases List.mem_append.mp hv with hold | hnew
    · exact (entry.le_lat v hold).trans h.le
    · rw [List.mem_singleton.mp hnew]

/-- A read raises the last access timestamp to its own. -/
def access (entry : MultiVersionEntry) (timestamp : ℕ) : MultiVersionEntry :=
  if h : timestamp > entry.lat then
    { entry with
      lat := timestamp
      le_lat := fun v hv => (entry.le_lat v hv).trans h.le }
  else entry

end MultiVersionEntry

@[ext] structure KVStore where
  mvkvs : KeyMap String MultiVersionEntry

namespace KVStore

open MultiVersionEntry

def empty : KVStore := ⟨KeyMap.empty⟩

def write (store : KVStore) (key value : String) (timestamp : ℕ) :
    Except UniversalException KVStore :=
  match store.mvkvs key with
  | none => .ok ⟨store.mvkvs.insert key (.first value timestamp)⟩
  | some entry =>
      if h : entry.lat < timestamp then
        .ok ⟨store.mvkvs.assign key (entry.push value timestamp h)⟩
      else
        .error ⟨"Should never be writing to the past."⟩

/-- What has no defined result: an access outside a vector, or a loop that goes on after
the turns it is given. -/
inductive Fault where
  | outOfRange
  | outOfFuel
deriving DecidableEq, Repr

/-- The binary search of `read`. `start` is an `int`, so the `size_t` behind `middle` is
converted, while `end` is a `size_t`: in the comparison a negative `start` becomes greater
than the size of any vector. The accesses are checked. -/
def search (versions : List VersionEntry) (timestamp : ℕ) : ℕ → ℤ → ℕ → Except Fault ℤ
  | 0, _, _ => .error .outOfFuel
  | fuel + 1, start, stop =>
      if 0 ≤ start ∧ start.toNat < stop then
        let middle := (start.toNat + stop) / 2
        match versions[middle]? with
        | none => .error .outOfRange
        | some version =>
            if version.timestamp ≤ timestamp then
              search versions timestamp fuel (Int.bmod (middle + 1) (2 ^ 32)) stop
            else
              search versions timestamp fuel start middle
      else
        .ok start

/-- `read` with a loop of at most `fuel` turns. -/
def readWithin (store : KVStore) (fuel : ℕ) (key : String) (timestamp : ℕ) :
    Except Fault (Option String × KVStore) :=
  match store.mvkvs key with
  | none => .ok (none, store)
  | some entry => do
      let start ← search entry.versions timestamp fuel 0 entry.versions.length
      if start = 0 then
        return (none, store)
      else if start < 0 then
        .error .outOfRange
      else
        match entry.versions[start.toNat - 1]? with
        | none => .error .outOfRange
        | some version =>
            return (some version.value, ⟨store.mvkvs.assign key (entry.access timestamp)⟩)

/-- The versions of a key, which are none as long as the key is not written. -/
def versions (store : KVStore) (key : String) : List VersionEntry :=
  (store.mvkvs key).elim [] MultiVersionEntry.versions

/-- A search that ends does so in fewer turns than there are versions, and one more. -/
def read (store : KVStore) (key : String) (timestamp : ℕ) :
    Except Fault (Option String × KVStore) :=
  store.readWithin ((store.versions key).length + 1) key timestamp

def readLat (store : KVStore) (key : String) : Option ℕ :=
  (store.mvkvs key).map MultiVersionEntry.lat

end KVStore

end UniversalDB
