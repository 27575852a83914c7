import UniversalDB.Library.TransitionSystem
import UniversalDB.Library.UnorderedMap
import UniversalDB.Model.Proto

/-! # `Connections`

`γ` is the type of the channels, each of which is one connection, and `endpointId` gives
what a channel reports as its other end. A call of `add_channel` is one step, and so is the
close of a channel with its close callbacks. -/

namespace UniversalDB

/-- `socket` tells apart the connections there have been with one remote endpoint. -/
structure ChannelImpl where
  socket : ℕ
  remoteEndpoint : EndpointId
deriving DecidableEq, Repr

def ChannelImpl.endpointId (channel : ChannelImpl) : EndpointId :=
  ⟨channel.remoteEndpoint.ipString, 0⟩

structure Connections (γ : Type) where
  channels : UnorderedMap EndpointId γ

namespace Connections

variable {γ : Type}

def new : Connections γ := ⟨∅⟩

def getChannel (connections : Connections γ) (endpointId : EndpointId) : Option γ :=
  connections.channels.lookup endpointId

/-- `insert` does nothing for a key that is there. The channel is destroyed then. -/
def addChannel (connections : Connections γ) (endpointId : EndpointId) (channel : γ) :
    Connections γ :=
  ⟨connections.channels.insertNew endpointId channel⟩

/-- The close callback of a channel with the given endpoint id, and the channel that it
takes out. -/
def closeCallback (connections : Connections γ) (endpointId : EndpointId) :
    Except UniversalException (γ × Connections γ) :=
  match connections.channels.lookup endpointId with
  | some channel => return (channel, ⟨connections.channels.erase endpointId⟩)
  | none =>
      universalTerminate "A Channel cannot/should not be deleted whenever this callback is run."

/-! ## The life of the channels -/

/-- `openChannels` have been added and have not closed, whether or not they are owned. An
exception ends the thread that runs the callbacks. -/
structure Network (γ : Type) where
  connections : Connections γ
  openChannels : List γ
  closedChannels : List γ
  exception : Option UniversalException

/-- `removed` is the channel that a close callback takes out of `_channels`. -/
inductive Event (γ : Type) where
  | added (channel : γ)
  | closed (channel : γ) (removed : Option γ)
deriving DecidableEq, Repr

/-- Every channel is added once, and closes once: a read of no bytes is the last one. The
destruction of a channel cancels its read, which then ends like that too. -/
inductive Action (γ : Type) where
  | addChannel (channel : γ)
  | close (channel : γ)

variable [DecidableEq γ] (endpointId : γ → EndpointId)

def next (n : Network γ) (a : Action γ) : Option (List (Event γ) × Network γ) :=
  if n.exception.isSome then none
  else
    match a with
    | .addChannel channel =>
        if channel ∈ n.openChannels ∨ channel ∈ n.closedChannels then none
        else
          some ([.added channel],
            { n with
              connections := n.connections.addChannel (endpointId channel) channel
              openChannels := n.openChannels ++ [channel] })
    | .close channel =>
        if channel ∈ n.openChannels then
          let n' : Network γ :=
            { n with
              openChannels := n.openChannels.filter (· ≠ channel)
              closedChannels := n.closedChannels ++ [channel] }
          match n.connections.closeCallback (endpointId channel) with
          | .ok (removed, connections) =>
              some ([.closed channel (some removed)], { n' with connections := connections })
          | .error exception =>
              some ([.closed channel none], { n' with exception := some exception })
        else none

def machine : Machine (Network γ) (Action γ) (Event γ) where
  init := ⟨new, [], [], none⟩
  next := next endpointId

end Connections

end UniversalDB
