import UniversalDB.Library.KeyMap
import UniversalDB.Model.Proto

/-! # `PaxosLog`

`κ` is the type of the registered callbacks. A log does not run them: `setEntry` gives
the calls it makes, in order, so that the owner of a callback says what it does. -/

namespace UniversalDB

/-- A call of a registered callback with the arguments it gets. -/
structure Call (κ : Type) where
  callback : κ
  index : ℕ
  entry : PaxosLogEntry
deriving DecidableEq, Repr

structure PaxosLog (κ : Type) where
  log : KeyMap ℕ PaxosLogEntry
  availableIndices : List ℕ
  callbacks : EntryContentCase → List κ

namespace PaxosLog

variable {κ : Type}

/-- The constructor `PaxosLog()`. -/
def new : PaxosLog κ where
  log := KeyMap.empty
  availableIndices := [0]
  callbacks _ := []

def getEntry (l : PaxosLog κ) (index : ℕ) : Option PaxosLogEntry := l.log index

def nextAvailableIndex (l : PaxosLog κ) : Except UniversalException ℕ :=
  match l.availableIndices with
  | [] => .error ⟨"Set of available indices should never be 0"⟩
  | first :: _ => do
      universalAssert (l.log first).isNone
        "The index that is going to be returned as available must actually be available."
      return first

/-- The calls for the entry at one index, in registration order. `_log[i]` would insert a
missing entry; every index it is used at is populated. -/
def callsAt (l : PaxosLog κ) (index : ℕ) : List (Call κ) :=
  let entry := (l.log index).getD .notSet
  (l.callbacks entry.entryContentCase).map fun callback => ⟨callback, index, entry⟩

/-- The loop over the indices from `first` up to `next`, which is not reached. -/
def callsBetween (l : PaxosLog κ) (first next : ℕ) : List (Call κ) :=
  (List.range' first (next - first)).flatMap l.callsAt

/-- The new list of available indices when `index` gets an entry, for an index that is
either available or behind the last one. -/
def takeIndex (availableIndices : List ℕ) (lastIndex index : ℕ) : List ℕ :=
  if index < lastIndex then
    availableIndices.erase index
  else if index = lastIndex then
    availableIndices.erase index ++ [(index + 1) % 2 ^ 64]
  else
    availableIndices ++ List.range' (lastIndex + 1) (index - (lastIndex + 1)) ++
      [(index + 1) % 2 ^ 64]

/-- The log after `setEntry`, with the calls of callbacks it has made. -/
def setEntry (l : PaxosLog κ) (index : ℕ) (entry : PaxosLogEntry) :
    Except UniversalException (PaxosLog κ × List (Call κ)) :=
  match l.availableIndices.getLast? with
  | none => .error ⟨"Set of available indices should never be 0"⟩
  | some lastIndex => do
      let firstAvailableIndex ← l.nextAvailableIndex
      if index ≤ lastIndex ∧ index ∉ l.availableIndices then
        return (l, [])
      else
        let l' : PaxosLog κ :=
          { l with
            availableIndices := takeIndex l.availableIndices lastIndex index
            log := l.log.insert index entry }
        let nextFirstAvailableIndex ← l'.nextAvailableIndex
        return (l', l'.callsBetween firstAvailableIndex nextFirstAvailableIndex)

def addCallback (l : PaxosLog κ) (contentCase : EntryContentCase) (callback : κ) :
    PaxosLog κ :=
  { l with
    callbacks := Function.update l.callbacks contentCase
      (l.callbacks contentCase ++ [callback]) }

/-- A sequence of `setEntry` calls, with the calls of callbacks it has made. -/
def setEntries (l : PaxosLog κ) :
    List (ℕ × PaxosLogEntry) → Except UniversalException (PaxosLog κ × List (Call κ))
  | [] => return (l, [])
  | (index, entry) :: rest => do
      let (l₁, calls₁) ← l.setEntry index entry
      let (l₂, calls₂) ← l₁.setEntries rest
      return (l₂, calls₁ ++ calls₂)

/-- The constructor `PaxosLog(log)`, for the order in which the map is traversed. -/
def ofEntries (entries : List (ℕ × PaxosLogEntry)) :
    Except UniversalException (PaxosLog κ) := do
  let (l, _) ← new.setEntries entries
  return l

/-- Runs the calls of a `setEntry`. `run` is what a callback does to the state of its
owner, with what it sends. -/
def runCalls {σ ω : Type} (run : σ → Call κ → Except UniversalException (σ × List ω))
    (s : σ) : List (Call κ) → Except UniversalException (σ × List ω)
  | [] => return (s, [])
  | call :: calls => do
      let (s₁, sent₁) ← run s call
      let (s₂, sent₂) ← runCalls run s₁ calls
      return (s₂, sent₁ ++ sent₂)

def getAvailableIndices (l : PaxosLog κ) : List ℕ := l.availableIndices

end PaxosLog

end UniversalDB
