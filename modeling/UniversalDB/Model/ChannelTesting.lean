import Mathlib.Logic.Function.Basic
import UniversalDB.Library.TransitionSystem
import UniversalDB.Model.Proto

/-! # `ChannelTesting`

`ι` is the type of the channels of a test that share one `nonempty_channels`, and `μ` the
type of the messages. What the receive callbacks of a channel do with a message is not
known to it: they may queue messages on any channels. -/

namespace UniversalDB

structure ChannelTesting (ι μ : Type) where
  messageQueue : List μ
  otherChannel : ι
  connectionState : Bool
  listening : Bool

namespace ChannelTesting

def MAX_MESSAGES_QUEUE_SIZE : ℕ := 10000

def new {ι μ : Type} (otherChannel : ι) : ChannelTesting ι μ :=
  ⟨[], otherChannel, true, false⟩

/-- An exception that a call throws goes to the test, and ends it. -/
structure Network (ι μ : Type) where
  channels : ι → ChannelTesting ι μ
  nonemptyChannels : List ι
  exception : Option UniversalException

/-- `popOfEmpty` is the call of `pop()` on an empty queue, which has no defined result. -/
inductive Event (ι μ : Type) where
  | queued (channel : ι) (message : μ)
  | handedOver (channel : ι) (message : μ)
  | popped (channel : ι) (message : μ)
  | popOfEmpty
deriving DecidableEq, Repr

variable {ι μ : Type} [DecidableEq ι]

namespace Network

def setChannel (n : Network ι μ) (channel : ι) (value : ChannelTesting ι μ) : Network ι μ :=
  { n with channels := Function.update n.channels channel value }

def queue (n : Network ι μ) (channel : ι) : List μ := (n.channels channel).messageQueue

def setQueue (n : Network ι μ) (channel : ι) (messages : List μ) : Network ι μ :=
  n.setChannel channel { n.channels channel with messageQueue := messages }

/-- What a call that does not throw leads to. -/
abbrev Outcome (ι μ : Type) := List (Event ι μ) × Network ι μ

def queueSend (n : Network ι μ) (channel : ι) (message : μ) :
    Except UniversalException (Outcome ι μ) :=
  if (n.queue channel).length < MAX_MESSAGES_QUEUE_SIZE then
    let n' := n.setQueue channel (n.queue channel ++ [message])
    if (n'.queue channel).length = 1 then do
      universalAssert (channel ∉ n'.nonemptyChannels)
        ("This channel should not already be in the nonempty_channels vectors, since it " ++
          "was indeed empty")
      return ([.queued channel message],
        { n' with nonemptyChannels := n'.nonemptyChannels ++ [channel] })
    else return ([.queued channel message], n')
  else return ([], n)

def pop (n : Network ι μ) (channel : ι) : List (Event ι μ) × Network ι μ :=
  match n.queue channel with
  | [] => ([.popOfEmpty], n)
  | front :: rest => ([.popped channel front], n.setQueue channel rest)

def checkEmpty (n : Network ι μ) (channel : ι) : Except UniversalException (Network ι μ) :=
  if (n.queue channel).length = 0 then do
    universalAssert (channel ∈ n.nonemptyChannels)
      ("This channel should have been in the nonempty_channels vectors, since it was " ++
        "indeed nonempty")
    return { n with nonemptyChannels := n.nonemptyChannels.erase channel }
  else return n

def dropMessage (n : Network ι μ) (channel : ι) : Except UniversalException (Outcome ι μ) := do
  universalAssert ((n.queue channel).length > 0)
    "We should never be trying to deliver a message from an empty channel"
  let (events, n') := n.pop channel
  return (events, ← n'.checkEmpty channel)

/-- The calls of `queue_send` that the receive callbacks make, one after the other. -/
def queueAll (n : Network ι μ) : List (ι × μ) → Except UniversalException (Outcome ι μ)
  | [] => return ([], n)
  | (channel, message) :: sends => do
      let (events, n') ← n.queueSend channel message
      let (rest, n'') ← n'.queueAll sends
      return (events ++ rest, n'')

def receiveMessage (n : Network ι μ) (channel : ι) (sends : List (ι × μ)) :
    Except UniversalException (Outcome ι μ) :=
  if (n.channels channel).listening then n.queueAll sends else return ([], n)

/-- The message is still in front when the other end receives it. -/
def deliverMessage (n : Network ι μ) (channel : ι) (sends : List (ι × μ)) :
    Except UniversalException (Outcome ι μ) :=
  match n.queue channel with
  | [] =>
      universalTerminate "We should never be trying to deliver a message from an empty channel"
  | message :: _ =>
      if (n.channels channel).connectionState = false then n.dropMessage channel
      else do
        let (received, n₁) ← n.receiveMessage (n.channels channel).otherChannel sends
        let (popped, n₂) := n₁.pop channel
        return (.handedOver channel message :: received ++ popped, ← n₂.checkEmpty channel)

def startListening (n : Network ι μ) (channel : ι) : Network ι μ :=
  n.setChannel channel { n.channels channel with listening := true }

def setConnectionState (n : Network ι μ) (channel : ι) (connectionState : Bool) :
    Network ι μ :=
  n.setChannel channel { n.channels channel with connectionState := connectionState }

end Network

/-! ## The calls of a test -/

/-- `sends` is what the receive callbacks of the other end queue if it is listening. -/
inductive Action (ι μ : Type) where
  | queueSend (channel : ι) (message : μ)
  | deliverMessage (channel : ι) (sends : List (ι × μ))
  | dropMessage (channel : ι)
  | startListening (channel : ι)
  | setConnectionState (channel : ι) (connectionState : Bool)

def Network.call (n : Network ι μ) :
    Action ι μ → Except UniversalException (Network.Outcome ι μ)
  | .queueSend channel message => n.queueSend channel message
  | .deliverMessage channel sends => n.deliverMessage channel sends
  | .dropMessage channel => n.dropMessage channel
  | .startListening channel => return ([], n.startListening channel)
  | .setConnectionState channel connectionState =>
      return ([], n.setConnectionState channel connectionState)

/-- A test delivers and drops messages of channels that are not empty. -/
def Network.Allowed (n : Network ι μ) : Action ι μ → Prop
  | .deliverMessage channel _ => n.queue channel ≠ []
  | .dropMessage channel => n.queue channel ≠ []
  | _ => True

instance [DecidableEq μ] (n : Network ι μ) (a : Action ι μ) : Decidable (n.Allowed a) :=
  match a with
  | .deliverMessage channel _ => inferInstanceAs (Decidable (n.queue channel ≠ []))
  | .dropMessage channel => inferInstanceAs (Decidable (n.queue channel ≠ []))
  | .queueSend _ _ | .startListening _ | .setConnectionState _ _ => .isTrue trivial

def next (n : Network ι μ) (a : Action ι μ) : Option (List (Event ι μ) × Network ι μ) :=
  if n.exception.isNone then
    match n.call a with
    | .ok result => some result
    | .error exception => some ([], { n with exception := some exception })
  else none

def machine {μ : Type} (otherEnd : ι → ι) :
    Machine (Network ι μ) (Action ι μ) (Event ι μ) where
  init := ⟨fun channel => new (otherEnd channel), [], none⟩
  next := next

end ChannelTesting

end UniversalDB
