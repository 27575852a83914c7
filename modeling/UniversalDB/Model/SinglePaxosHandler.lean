import UniversalDB.Library.KeyMap
import UniversalDB.Model.Proto

/-! # `SinglePaxosHandler`

`ε` is the type of endpoint ids. A handler acts on its `Connections` and its `PaxosLog`
only by calls without a result, so a handler function gives the new handler and the calls
it makes, in order. -/

namespace UniversalDB

/-- `Constants::num_slave_servers` is the only constant a Paxos instance reads. -/
structure Constants where
  numSlaveServers : ℕ
deriving DecidableEq, Repr

/-- A call of a collaborator. `paxos_message_to_wrapper` only adds an envelope, which
`IncomingMessageHandler` takes off again. -/
inductive Effect (ε : Type) where
  | broadcast (endpoints : List ε) (message : PaxosMessage)
  | send (endpointId : ε) (message : PaxosMessage)
  | setEntry (index : ℕ) (entry : PaxosLogEntry)
deriving DecidableEq, Repr

structure PaxosProposerState where
  latest : ℕ
  proposal : KeyMap ℕ PaxosLogEntry
  prepareState : KeyMap ℕ (List (ℕ × PaxosLogEntry))

/-- The tuple `accepted_state`: the latest promised number, and the number and the value
of the last accepted value. -/
structure PaxosAcceptorState where
  rnd : ℕ
  vrnd : ℕ
  vval : PaxosLogEntry

structure PaxosLearnerState where
  learned : Bool
  learnedValue : KeyMap ℕ (PaxosLogEntry × ℕ)

structure SinglePaxosHandler (ε : Type) where
  constants : Constants
  paxosLogIndex : ℕ
  configEndpoints : List ε
  proposerState : PaxosProposerState
  acceptorState : PaxosAcceptorState
  learnerState : PaxosLearnerState

namespace SinglePaxosHandler

variable {ε : Type}

def new (constants : Constants) (paxosLogIndex : ℕ) (configEndpoints : List ε) :
    SinglePaxosHandler ε where
  constants := constants
  paxosLogIndex := paxosLogIndex
  configEndpoints := configEndpoints
  proposerState := ⟨0, KeyMap.empty, KeyMap.empty⟩
  acceptorState := ⟨0, 0, .notSet⟩
  learnerState := ⟨false, KeyMap.empty⟩

/-- `draw` is the result of `rand_uniform(0, 999)`. -/
def nextProposalNumber (h : SinglePaxosHandler ε) (draw : ℕ) : ℕ :=
  (h.proposerState.latest + draw) % 2 ^ 32

def majorityThreshold (h : SinglePaxosHandler ε) : ℕ :=
  h.constants.numSlaveServers / 2 + 1

/-- A message about the instance. `set_paxos_index` keeps 32 bits of the index. -/
def message (h : SinglePaxosHandler ε) (content : PaxosMessage.Content) : PaxosMessage :=
  ⟨UInt32.ofNat h.paxosLogIndex, content⟩

def propose (h : SinglePaxosHandler ε) (draw : ℕ) (entry : PaxosLogEntry) :
    SinglePaxosHandler ε × List (Effect ε) :=
  let proposalNumber := h.nextProposalNumber draw
  let h' : SinglePaxosHandler ε :=
    { h with
      proposerState :=
        { latest := proposalNumber
          proposal := h.proposerState.proposal.insert proposalNumber entry
          prepareState := h.proposerState.prepareState.insert proposalNumber [] } }
  (h', [.broadcast h.configEndpoints (h.message (.prepare proposalNumber))])

def prepare (h : SinglePaxosHandler ε) (endpointId : ε) (rnd : ℕ) :
    SinglePaxosHandler ε × List (Effect ε) :=
  if rnd > h.acceptorState.rnd then
    let acceptorState := { h.acceptorState with rnd := rnd }
    ({ h with acceptorState := acceptorState },
      [.send endpointId
        (h.message (.promise acceptorState.rnd acceptorState.vrnd acceptorState.vval))])
  else
    (h, [])

/-- The loop over the promises that picks the value of the Accept message. `max_vrnd` is
zero and is not assigned in the loop. -/
def proposalValue (own : PaxosLogEntry) (promises : List (ℕ × PaxosLogEntry)) :
    PaxosLogEntry :=
  let maxVrnd := 0
  promises.foldl
    (fun value promise =>
      let vrnd := promise.1
      if vrnd > 0 then
        if vrnd > maxVrnd then promise.2 else value
      else value)
    own

def promise (h : SinglePaxosHandler ε) (rnd vrnd : ℕ) (vval : PaxosLogEntry) :
    Except UniversalException (SinglePaxosHandler ε × List (Effect ε)) :=
  match h.proposerState.prepareState rnd with
  | none => .error ⟨"The prepare_state of a Proposal Number must have been initialized " ++
      "if it is to be received as a Promise"⟩
  | some promises =>
      if promises.length < h.majorityThreshold then
        let promises := promises ++ [(vrnd, vval)]
        let h' : SinglePaxosHandler ε :=
          { h with
            proposerState :=
              { h.proposerState with
                prepareState := h.proposerState.prepareState.assign rnd promises } }
        if promises.length = h.majorityThreshold then
          match h.proposerState.proposal rnd with
          | none => .error ⟨"The Proposal for a Proposal Number must have been initialized " ++
              "if it is to be received as a Promise"⟩
          | some own =>
              .ok (h', [.broadcast h.configEndpoints
                (h.message (.accept rnd (proposalValue own promises)))])
        else
          .ok (h', [])
      else
        .ok (h, [])

def accept (h : SinglePaxosHandler ε) (vrnd : ℕ) (vval : PaxosLogEntry) :
    SinglePaxosHandler ε × List (Effect ε) :=
  if vrnd ≥ h.acceptorState.rnd then
    ({ h with acceptorState := ⟨vrnd, vrnd, vval⟩ },
      [.broadcast h.configEndpoints (h.message (.learn vrnd vval))])
  else
    (h, [])

def learn (h : SinglePaxosHandler ε) (vrnd : ℕ) (vval : PaxosLogEntry) :
    SinglePaxosHandler ε × List (Effect ε) :=
  if h.learnerState.learned then
    (h, [])
  else
    let (value, learnedCount) := (h.learnerState.learnedValue vrnd).getD (vval, 0)
    if learnedCount < h.majorityThreshold then
      let learnedValue := h.learnerState.learnedValue.assign vrnd (value, learnedCount + 1)
      if learnedCount + 1 = h.majorityThreshold then
        ({ h with learnerState := ⟨true, learnedValue⟩ },
          [.setEntry h.paxosLogIndex value])
      else
        ({ h with learnerState := ⟨false, learnedValue⟩ }, [])
    else
      ({ h with learnerState :=
          ⟨false, h.learnerState.learnedValue.assign vrnd (value, learnedCount)⟩ }, [])

end SinglePaxosHandler

end UniversalDB
