import UniversalDB.Library.AgreedLog
import UniversalDB.Model.Group

/-! # Services over the log of a Paxos group

What tablet participants and data masters have in common: a log with callbacks, tasks and
messages of their own, and the entries they propose. Here such a service runs twice, over a
log that its participants agree on, and on the nodes of a Paxos group. -/

namespace UniversalDB

def PaxosLog.withoutCallbacks {κ : Type} (l : PaxosLog κ) : PaxosLog Empty where
  log := l.log
  availableIndices := l.availableIndices
  callbacks _ := []

/-- A service with participants `ι` in states `σ`, callbacks `κ`, actions `α` of a
participant by itself, and what they show. `act` comes with the index and the entry of a
proposal, and `setEntry` runs the callbacks of `PaxosLog::set_entry`. An exception stops a
participant. -/
structure Service (ι κ σ α δ : Type) where
  new : σ
  paxosLog : σ → PaxosLog κ
  exception : σ → Option UniversalException
  act : ι → α → σ → Option (List δ × σ × Option (ℕ × PaxosLogEntry))
  setEntry : ι → ℕ → PaxosLogEntry → σ → List δ × σ
  new_paxosLog : (paxosLog new).withoutCallbacks = .new
  act_paxosLog : ∀ {i a p events p' proposal}, act i a p = some (events, p', proposal) →
    paxosLog p' = paxosLog p
  act_index : ∀ {i a p events p' index entry},
    act i a p = some (events, p', some (index, entry)) →
      (paxosLog p).nextAvailableIndex = .ok index
  setEntry_paxosLog : ∀ {i index entry p}, exception (setEntry i index entry p).2 = none →
    ∃ calls, (paxosLog p).setEntry index entry =
      .ok (paxosLog (setEntry i index entry p).2, calls)

namespace Service

variable {ι κ σ α δ : Type}

/-! ## Over a log that the participants agree on -/

structure AgreedState (ι σ : Type) where
  participants : ι → σ
  agreedLog : AgreedLog PaxosLogEntry

inductive AgreedAction (ι α : Type) where
  | act (i : ι) (a : α)
  | choose (k : ℕ)
  | learn (i : ι) (index : ℕ)

def nextAgreed [DecidableEq ι] (S : Service ι κ σ α δ) (s : AgreedState ι σ) :
    AgreedAction ι α → Option (List δ × AgreedState ι σ)
  | .act i a =>
      if (S.exception (s.participants i)).isNone then
        match S.act i a (s.participants i) with
        | none => none
        | some (events, p, proposal) =>
            some (events, ⟨Function.update s.participants i p, s.agreedLog.offer proposal⟩)
      else none
  | .choose k =>
      if s.agreedLog.entries.length < 2 ^ 64 - 1 then
        match s.agreedLog.choose k with
        | none => none
        | some agreedLog => some ([], { s with agreedLog := agreedLog })
      else none
  | .learn i index =>
      match s.agreedLog.entries[index]? with
      | none => none
      | some entry =>
          if (S.exception (s.participants i)).isNone then
            let (events, p) := S.setEntry i index entry (s.participants i)
            some (events, { s with participants := Function.update s.participants i p })
          else none

def agreedMachine [DecidableEq ι] (S : Service ι κ σ α δ) :
    Machine (AgreedState ι σ) (AgreedAction ι α) δ where
  init := ⟨fun _ => S.new, .empty⟩
  next := S.nextAgreed

/-! ## On the nodes of a Paxos group -/

/-- `exception` is what a handler of the group has thrown. -/
structure Member (n : ℕ) (σ : Type) where
  state : σ
  multiPaxosHandler : MultiPaxosHandler (Fin n)
  exception : Option UniversalException

structure State (n : ℕ) (σ : Type) where
  members : Fin n → Member n σ
  network : List (Group.Packet n)

inductive Event (n : ℕ) (δ : Type) where
  | paxos (event : Group.Event n)
  | service (event : δ)
deriving DecidableEq

inductive Action (n : ℕ) (α : Type) where
  | act (i : Fin n) (draw : ℕ) (a : α)
  | sync (i : Fin n)
  | deliver (position : ℕ)
  | drop (position : ℕ)

variable {n : ℕ}

def initial (S : Service (Fin n) κ σ α δ) : State n σ where
  members _ := ⟨S.new, .new (Group.instanceProvider n), none⟩
  network := []

def live (S : Service ι κ σ α δ) (m : Member n σ) : Bool :=
  (S.exception m.state).isNone && m.exception.isNone

def State.setMember (s : State n σ) (i : Fin n) (m : Member n σ)
    (network : List (Group.Packet n)) : State n σ :=
  ⟨Function.update s.members i m, network⟩

def State.stop (s : State n σ) (i : Fin n) (exception : UniversalException)
    (network : List (Group.Packet n)) : State n σ :=
  s.setMember i { s.members i with exception := some exception } network

/-- The `set_entry` calls of a handler, until a callback throws. -/
def setEntries (S : Service ι κ σ α δ) (i : ι) (p : σ) :
    List (ℕ × PaxosLogEntry) → List δ × σ
  | [] => ([], p)
  | (index, entry) :: rest =>
      let (events, p') := S.setEntry i index entry p
      if (S.exception p').isSome then
        (events, p')
      else
        let (events', p'') := S.setEntries i p' rest
        (events ++ events', p'')

/-- Member `i` has acted, and passes its proposal to `MultiPaxosHandler::propose`. -/
def finish (S : Service (Fin n) κ σ α δ) (s : State n σ) (i : Fin n) (draw : ℕ)
    (events : List δ) (m : Member n σ) :
    Option (ℕ × PaxosLogEntry) → Option (List (Event n δ) × State n σ)
  | none => some (events.map .service, s.setMember i m s.network)
  | some (index, entry) =>
      if draw ≤ 999 ∧ index < 2 ^ 32 then
        match m.multiPaxosHandler.propose (S.paxosLog m.state) draw entry with
        | .error exception => some ([], s.stop i exception s.network)
        | .ok (multiPaxosHandler, effects) =>
            some (events.map .service ++ [.paxos (.proposed i index entry)],
              s.setMember i { m with multiPaxosHandler := multiPaxosHandler }
                (s.network ++ effects.flatMap (Group.outgoing i)))
      else none

/-- The repeated task of `LogSyncer::schedule_syncing`. A request that is undefined is not
sent. -/
def sync (S : Service (Fin n) κ σ α δ) (m : Member n σ) (i : Fin n) : List (Group.Packet n) :=
  (LogSyncer.requestFor (S.paxosLog m.state)).toList.flatMap fun request =>
    (List.finRange n).map fun dst => ⟨i, dst, .syncRequest request⟩

/-- Member `i` sets the entries that a handler writes. -/
def write (S : Service (Fin n) κ σ α δ) (s : State n σ) (i : Fin n) (m : Member n σ)
    (entries : List (ℕ × PaxosLogEntry)) (events : List (Group.Event n))
    (network : List (Group.Packet n)) : List (Event n δ) × State n σ :=
  let (shown, state) := S.setEntries i m.state entries
  (events.map .paxos ++ shown.map .service, s.setMember i { m with state := state } network)

/-- The handlers for the messages of the group. -/
def handle (S : Service (Fin n) κ σ α δ) (s : State n σ) (network : List (Group.Packet n))
    (packet : Group.Packet n) : List (Event n δ) × State n σ :=
  let i := packet.dst
  let m := s.members i
  match packet.payload with
  | .paxosMessage message =>
      match m.multiPaxosHandler.handleIncomingMessage packet.src message with
      | .error exception => ([], s.stop i exception network)
      | .ok (multiPaxosHandler, effects) =>
          S.write s i { m with multiPaxosHandler := multiPaxosHandler }
            (effects.filterMap Group.written)
            (effects.filterMap (Group.shown i message.content))
            (network ++ effects.flatMap (Group.outgoing i))
  | .syncRequest request =>
      match LogSyncer.buildSyncResponse (S.paxosLog m.state) request with
      | .error exception => ([], s.stop i exception network)
      | .ok response =>
          ([], { s with network := network ++ [⟨i, packet.src, .syncResponse response⟩] })
  | .syncResponse response =>
      S.write s i m
        (response.missingEntries.map fun entryWithIndex =>
          (entryWithIndex.index.toNat, entryWithIndex.entry)) [] network

/-- A member that has stopped takes no step, and a message copy for it is lost. -/
def next (S : Service (Fin n) κ σ α δ) (s : State n σ) :
    Action n α → Option (List (Event n δ) × State n σ)
  | .act i draw a =>
      let m := s.members i
      if S.live m then
        match S.act i a m.state with
        | none => none
        | some (events, state, proposal) =>
            S.finish s i draw events { m with state := state } proposal
      else none
  | .sync i =>
      if S.live (s.members i) then
        some ([], { s with network := s.network ++ S.sync (s.members i) i })
      else none
  | .deliver position =>
      match s.network[position]? with
      | none => none
      | some packet =>
          let rest := s.network.eraseIdx position
          if S.live (s.members packet.dst) then
            some (S.handle s rest packet)
          else
            some ([], { s with network := rest })
  | .drop position =>
      match s.network[position]? with
      | none => none
      | some _ => some ([], { s with network := s.network.eraseIdx position })

def machine (S : Service (Fin n) κ σ α δ) : Machine (State n σ) (Action n α) (Event n δ) where
  init := S.initial
  next := S.next

end Service

end UniversalDB
