import UniversalDB.Library.TransitionSystem
import UniversalDB.Library.UnorderedMap
import UniversalDB.Model.KeySpaceRange

/-! # `TabletParticipantManager`

A handler that scans the map is given the order in which it does so. -/

namespace UniversalDB

/-- The parsed message, as far as the manager distinguishes them. -/
inductive MessageWrapper where
  | clientRequest (request : ClientRequest)
  | tabletMessage (message : TabletMessage)
  | other
deriving DecidableEq

structure IncomingMessage where
  endpointId : EndpointId
  message : MessageWrapper
deriving DecidableEq

/-- What the manager sees of a participant: `serial` tells which call of the provider has
made it, and `queue` is what has been queued with its scheduler. -/
structure ManagedParticipant where
  serial : ℕ
  queue : List IncomingMessage
deriving DecidableEq

/-- `created` counts the calls of the provider. -/
structure TabletParticipantManager where
  tpMap : UnorderedMap TabletId ManagedParticipant
  created : ℕ

namespace TabletParticipantManager

inductive Event where
  | changed (ranges : List Server.KeySpaceRange)
  | created (serial : ℕ) (tabletId : TabletId)
  | queued (serial : ℕ) (tabletId : TabletId) (message : IncomingMessage)
  | responded (endpointId : EndpointId) (response : ClientResponse)
deriving DecidableEq

def new : TabletParticipantManager where
  tpMap := ∅
  created := 0

/-- The body of the loop of `handle_key_space_change`. -/
def handleRange (m : TabletParticipantManager) (range : Server.KeySpaceRange) :
    TabletParticipantManager × List Event :=
  if (m.tpMap.lookup range).isSome then (m, [])
  else
    (⟨AList.insert range ⟨m.created, []⟩ m.tpMap, m.created + 1⟩, [.created m.created range])

def handleKeySpaceChange (m : TabletParticipantManager) :
    List Server.KeySpaceRange → TabletParticipantManager × List Event
  | [] => (m, [])
  | range :: ranges =>
      let (m₁, events₁) := m.handleRange range
      let (m₂, events₂) := m₁.handleKeySpaceChange ranges
      (m₂, events₁ ++ events₂)

/-- `tp->_scheduler->queue_message` for an entry of the map. -/
def queueMessage (m : TabletParticipantManager) (tabletId : TabletId)
    (tp : ManagedParticipant) (message : IncomingMessage) :
    TabletParticipantManager × List Event :=
  ({ m with
      tpMap := AList.insert tabletId { tp with queue := tp.queue ++ [message] } m.tpMap },
    [.queued tp.serial tabletId message])

def handleClientRequest (m : TabletParticipantManager)
    (order : List ((_ : TabletId) × ManagedParticipant)) (clientRequest : ClientRequest)
    (message : IncomingMessage) : TabletParticipantManager × List Event :=
  match order.find? fun e => Server.withinRange e.1 clientRequest.databaseId
      clientRequest.tableId clientRequest.key with
  | some ⟨tabletId, tp⟩ => m.queueMessage tabletId tp message
  | none => (m, [.responded message.endpointId ⟨none, .ERROR⟩])

def handleTabletMessage (m : TabletParticipantManager)
    (order : List ((_ : TabletId) × ManagedParticipant)) (tabletMessage : TabletMessage)
    (message : IncomingMessage) : TabletParticipantManager × List Event :=
  match order.find? fun e => e.1 = Server.convert tabletMessage.range with
  | some ⟨tabletId, tp⟩ => m.queueMessage tabletId tp message
  | none => (m, [])

def handle (m : TabletParticipantManager)
    (order : List ((_ : TabletId) × ManagedParticipant)) (message : IncomingMessage) :
    TabletParticipantManager × List Event :=
  match message.message with
  | .clientRequest clientRequest => m.handleClientRequest order clientRequest message
  | .tabletMessage tabletMessage => m.handleTabletMessage order tabletMessage message
  | .other => (m, [])

/-! ## The calls of a manager -/

inductive Action where
  | keySpaceChange (ranges : List Server.KeySpaceRange)
  | message (order : List ((_ : TabletId) × ManagedParticipant)) (message : IncomingMessage)

def next (m : TabletParticipantManager) :
    Action → Option (List Event × TabletParticipantManager)
  | .keySpaceChange ranges =>
      let (m', events) := m.handleKeySpaceChange ranges
      some (.changed ranges :: events, m')
  | .message order message =>
      if m.tpMap.Traversal order then
        let (m', events) := m.handle order message
        some (events, m')
      else none

def machine : Machine TabletParticipantManager Action Event where
  init := new
  next := next

end TabletParticipantManager

end UniversalDB
