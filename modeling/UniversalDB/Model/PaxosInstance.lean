import UniversalDB.Library.TransitionSystem
import UniversalDB.Model.MultiPaxosHandler

/-! # The calls of one Paxos instance

A handler and the calls it gets, in any order. `propose` is called with any draw of
`rand_uniform(0, 999)`; the proposal numbers stay below `2 ^ 32`. -/

namespace UniversalDB.PaxosInstance

open SinglePaxosHandler MultiPaxosHandler

variable {ε : Type}

inductive Action (ε : Type) where
  | propose (draw : ℕ) (entry : PaxosLogEntry)
  | handle (endpointId : ε) (content : PaxosMessage.Content)
deriving DecidableEq

/-- A Prepare message that was broadcast for an entry, and the promises that have become
a majority for a number, with the values of the Accept messages this has led to. -/
inductive Event where
  | prepared (draw number : ℕ) (entry : PaxosLogEntry)
  | majority (rnd : ℕ) (promises : List (ℕ × PaxosLogEntry)) (vvals : List PaxosLogEntry)
deriving DecidableEq

/-- What is shown of an effect of `propose`. -/
def shownPrepare (draw : ℕ) (entry : PaxosLogEntry) : Effect ε → Option Event
  | .broadcast _ message =>
      match message.content with
      | .prepare rnd => some (.prepared draw rnd entry)
      | _ => none
  | _ => none

def acceptValue (rnd : ℕ) : Effect ε → Option PaxosLogEntry
  | .broadcast _ message =>
      match message.content with
      | .accept vrnd vval => if vrnd = rnd then some vval else none
      | _ => none
  | _ => none

/-- What is shown of a call that handles a Promise message for `rnd`. -/
def shownMajority (h h' : SinglePaxosHandler ε) (rnd : ℕ) (effects : List (Effect ε)) :
    List Event :=
  match h.proposerState.prepareState rnd, h'.proposerState.prepareState rnd with
  | some before, some promises =>
      if before.length < h.majorityThreshold ∧ promises.length = h.majorityThreshold then
        [.majority rnd promises (effects.filterMap (acceptValue rnd))]
      else []
  | _, _ => []

def shown (h h' : SinglePaxosHandler ε) (effects : List (Effect ε)) :
    PaxosMessage.Content → List Event
  | .promise rnd _ _ => shownMajority h h' rnd effects
  | _ => []

/-- A message on which a handler throws ends the run. -/
def next (h : SinglePaxosHandler ε) :
    Action ε → Option (List Event × SinglePaxosHandler ε)
  | .propose draw entry =>
      if draw ≤ 999 ∧ h.proposerState.latest + draw < 2 ^ 32 then
        let (h', effects) := h.propose draw entry
        some (effects.filterMap (shownPrepare draw entry), h')
      else none
  | .handle endpointId content =>
      match dispatch h endpointId content with
      | .ok (h', effects) => some (shown h h' effects content, h')
      | .error _ => none

def machine (constants : Constants) (paxosLogIndex : ℕ) (configEndpoints : List ε) :
    Machine (SinglePaxosHandler ε) (Action ε) Event where
  init := .new constants paxosLogIndex configEndpoints
  next := next

end UniversalDB.PaxosInstance
