import UniversalDB.Library.Synod.Agreement
import UniversalDB.Model.Group
import UniversalDB.Verification.SinglePaxosHandler

/-! # One Paxos instance runs single-decree Paxos

The handlers of the instance at one index, on all nodes of a group, are compared with the
protocol in which promises and votes name their senders. -/

namespace UniversalDB.Group

open SinglePaxosHandler MultiPaxosHandler

variable {n : ℕ}

/-- The protocol of an instance of a group of `n` nodes; `ok` restricts the promises with
which a majority may be completed. -/
def protocol (n : ℕ) (ok : List (ℕ × PaxosLogEntry) → Prop) :
    Synod.Protocol PaxosLogEntry where
  quorum := n / 2 + 1
  select := proposalValue
  ok := ok
  blank := .notSet

/-! ## Views of messages and events at an index -/

def contentView : PaxosMessage.Content → Option (Synod.Body PaxosLogEntry)
  | .notSet => none
  | .prepare rnd => some (.prepare rnd)
  | .promise rnd vrnd vval => some (.promise rnd vrnd vval)
  | .accept vrnd vval => some (.accept vrnd vval)
  | .learn vrnd vval => some (.learn vrnd vval)

def packetView (index : ℕ) (packet : Packet n) :
    Option (Synod.Packet (Fin n) PaxosLogEntry) :=
  match packet.payload with
  | .paxosMessage message =>
      if message.paxosIndex.toNat = index then
        (contentView message.content).map fun body => ⟨packet.src, packet.dst, body⟩
      else none
  | _ => none

def Event.index : Event n → ℕ
  | .proposed _ index _ => index
  | .promised _ _ index _ _ _ => index
  | .acceptSent _ index _ _ => index
  | .accepted _ index _ _ => index
  | .learned _ index _ _ => index

def Event.body : Event n → Synod.Event (Fin n) PaxosLogEntry
  | .proposed node _ entry => .proposed node entry
  | .promised node proposer _ rnd vrnd vval => .promised node proposer rnd vrnd vval
  | .acceptSent node _ vrnd vval => .opened node vrnd vval
  | .accepted node _ vrnd vval => .accepted node vrnd vval
  | .learned node _ vrnd entry => .learned node vrnd entry

def eventView (index : ℕ) (event : Event n) : Option (Synod.Event (Fin n) PaxosLogEntry) :=
  if event.index = index then some event.body else none

@[simp] theorem eventView_self (event : Event n) :
    eventView event.index event = some event.body := by
  simp [eventView]

theorem eventView_of_ne {index : ℕ} {event : Event n} (h : event.index ≠ index) :
    eventView index event = none := by
  simp [eventView, h]

theorem filterMap_eventView {index : ℕ} {event : Event n} (h : event.index = index) :
    [event].filterMap (eventView index) = [event.body] := by
  simp [eventView, h]

/-- The packets of a list that belong to an index. -/
def networkView (index : ℕ) (packets : List (Packet n)) :
    Multiset (Synod.Packet (Fin n) PaxosLogEntry) :=
  ↑(packets.filterMap (packetView index))

@[simp] theorem networkView_nil (index : ℕ) : networkView index ([] : List (Packet n)) = 0 :=
  rfl

@[simp] theorem networkView_append (index : ℕ) (packets packets' : List (Packet n)) :
    networkView index (packets ++ packets') =
      networkView index packets + networkView index packets' := by
  simp [networkView]

theorem networkView_of_none {index : ℕ} {packets : List (Packet n)}
    (h : ∀ packet ∈ packets, packetView index packet = none) :
    networkView index packets = 0 := by
  have hnil : packets.filterMap (packetView index) = [] := by
    simpa [List.filterMap_eq_nil_iff] using h
  rw [networkView, hnil]
  rfl

/-- Taking a packet off the network takes its view off the view of the network. -/
theorem networkView_eraseIdx (index : ℕ) {network : List (Packet n)} {position : ℕ}
    {packet : Packet n} (h : network[position]? = some packet) :
    networkView index network =
      (packetView index packet).elim (networkView index (network.eraseIdx position))
        (· ::ₘ networkView index (network.eraseIdx position)) := by
  obtain ⟨hlt, rfl⟩ := List.getElem?_eq_some_iff.mp h
  have hperm : (network[position] :: network.eraseIdx position).Perm network :=
    List.getElem_cons_eraseIdx_perm hlt
  have hview := (hperm.filterMap (packetView index)).symm
  rw [networkView, Multiset.coe_eq_coe.mpr hview, List.filterMap_cons]
  cases packetView index network[position] <;> rfl

/-- One copy for every node is a broadcast of the protocol. -/
theorem networkView_broadcast (index : ℕ) (src : Fin n) (message : PaxosMessage)
    {body : Synod.Body PaxosLogEntry} (hindex : message.paxosIndex.toNat = index)
    (hbody : contentView message.content = some body) :
    networkView index (outgoing src (.broadcast (List.finRange n) message)) =
      Synod.broadcast src body := by
  have hview : packetView index ∘ (fun dst => (⟨src, dst, .paxosMessage message⟩ : Packet n)) =
      fun dst => some ⟨src, dst, body⟩ := by
    funext dst
    simp [packetView, hindex, hbody]
  rw [networkView, outgoing, List.filterMap_map, hview, Synod.broadcast, Fin.univ_def]
  simp

theorem networkView_send (index : ℕ) (src dst : Fin n) (message : PaxosMessage)
    {body : Synod.Body PaxosLogEntry} (hindex : message.paxosIndex.toNat = index)
    (hbody : contentView message.content = some body) :
    networkView index (outgoing src (.send dst message)) = {⟨src, dst, body⟩} := by
  have hview : packetView index (⟨src, dst, .paxosMessage message⟩ : Packet n) =
      some ⟨src, dst, body⟩ := by
    simp [packetView, hindex, hbody]
  simp [networkView, outgoing, hview]

section Shown

variable {index : ℕ} {node : Fin n} {content : PaxosMessage.Content}

theorem shown_promise {proposer : Fin n} {message : PaxosMessage} {rnd vrnd : ℕ}
    {vval : PaxosLogEntry} (hindex : message.paxosIndex.toNat = index)
    (hcontent : message.content = .promise rnd vrnd vval) :
    ([Effect.send proposer message].filterMap (shown node content)).filterMap
      (eventView index) = [.promised node proposer rnd vrnd vval] := by
  simp [shown, hcontent, eventView, Event.index, Event.body, hindex]

theorem shown_accept {endpoints : List (Fin n)} {message : PaxosMessage} {vrnd : ℕ}
    {vval : PaxosLogEntry} (hindex : message.paxosIndex.toNat = index)
    (hcontent : message.content = .accept vrnd vval) :
    ([Effect.broadcast endpoints message].filterMap (shown node content)).filterMap
      (eventView index) = [.opened node vrnd vval] := by
  simp [shown, hcontent, eventView, Event.index, Event.body, hindex]

theorem shown_learn {endpoints : List (Fin n)} {message : PaxosMessage} {vrnd : ℕ}
    {vval : PaxosLogEntry} (hindex : message.paxosIndex.toNat = index)
    (hcontent : message.content = .learn vrnd vval) :
    ([Effect.broadcast endpoints message].filterMap (shown node content)).filterMap
      (eventView index) = [.accepted node vrnd vval] := by
  simp [shown, hcontent, eventView, Event.index, Event.body, hindex]

end Shown

/-! ## The state of an instance -/

/-- The instance for an index as the group provides it. -/
structure Configured (n index : ℕ) (h : SinglePaxosHandler (Fin n)) : Prop where
  constants : h.constants = ⟨n⟩
  paxosLogIndex : h.paxosLogIndex = index
  configEndpoints : h.configEndpoints = List.finRange n

/-- What the protocol keeps at one node. -/
structure Local (n : ℕ) where
  acceptor : Synod.Acceptor PaxosLogEntry
  proposal : KeyMap ℕ PaxosLogEntry
  promises : KeyMap ℕ (List (Fin n × ℕ × PaxosLogEntry))
  tally : KeyMap ℕ (PaxosLogEntry × List (Fin n))

def localState (t : Synod.State (Fin n) PaxosLogEntry) (i : Fin n) : Local n :=
  ⟨t.acceptor i, t.proposal i, t.promises i, t.tally i⟩

/-- The handler keeps the promises without their senders, and of the voters only their
number. -/
structure Represents (h : SinglePaxosHandler (Fin n)) (t : Local n) : Prop where
  acceptor : t.acceptor =
    ⟨h.acceptorState.rnd, h.acceptorState.vrnd, h.acceptorState.vval⟩
  proposal : t.proposal = h.proposerState.proposal
  promises : ∀ r, h.proposerState.prepareState r = (t.promises r).map (List.map Prod.snd)
  tally : ∀ r, h.learnerState.learnedValue r =
    (t.tally r).map fun votes => (votes.1, votes.2.length)

theorem Configured.majorityThreshold {index : ℕ} {h : SinglePaxosHandler (Fin n)}
    (hcfg : Configured n index h) : h.majorityThreshold = n / 2 + 1 := by
  simp [SinglePaxosHandler.majorityThreshold, hcfg.constants]

theorem Configured.message_index {index : ℕ} {h : SinglePaxosHandler (Fin n)}
    (hcfg : Configured n index h) (hindex : index < 2 ^ 32)
    (content : PaxosMessage.Content) : (h.message content).paxosIndex.toNat = index := by
  simp only [message, hcfg.paxosLogIndex, UInt32.toNat_ofNat']
  exact Nat.mod_eq_of_lt hindex

theorem instanceProvider_configured (n index : ℕ) :
    Configured n index (instanceProvider n index) :=
  ⟨rfl, rfl, rfl⟩

theorem instanceProvider_represents (n index : ℕ) (i : Fin n) :
    Represents (instanceProvider n index) (localState (Synod.State.initial .notSet) i) := by
  constructor <;> simp [instanceProvider, SinglePaxosHandler.new, localState,
    Synod.State.initial]

/-! ## What a handler call leaves alone -/

/-- An effect about the instance of `h`. -/
def About (h : SinglePaxosHandler (Fin n)) : Effect (Fin n) → Prop
  | .broadcast _ message => message.paxosIndex = UInt32.ofNat h.paxosLogIndex
  | .send _ message => message.paxosIndex = UInt32.ofNat h.paxosLogIndex
  | .setEntry index _ => index = h.paxosLogIndex

structure CallFrame (h h' : SinglePaxosHandler (Fin n)) (effects : List (Effect (Fin n))) :
    Prop where
  constants : h'.constants = h.constants
  paxosLogIndex : h'.paxosLogIndex = h.paxosLogIndex
  configEndpoints : h'.configEndpoints = h.configEndpoints
  effects : ∀ effect ∈ effects, About h effect

theorem CallFrame.refl (h : SinglePaxosHandler (Fin n)) : CallFrame h h [] :=
  ⟨rfl, rfl, rfl, by simp⟩

theorem CallFrame.configured {h h' : SinglePaxosHandler (Fin n)}
    {effects : List (Effect (Fin n))} (hframe : CallFrame h h' effects) {index : ℕ}
    (hcfg : Configured n index h) : Configured n index h' :=
  ⟨hframe.constants.trans hcfg.constants, hframe.paxosLogIndex.trans hcfg.paxosLogIndex,
    hframe.configEndpoints.trans hcfg.configEndpoints⟩

theorem propose_frame (h : SinglePaxosHandler (Fin n)) (draw : ℕ) (entry : PaxosLogEntry) :
    CallFrame h (h.propose draw entry).1 (h.propose draw entry).2 := by
  refine ⟨rfl, rfl, rfl, ?_⟩
  simp [SinglePaxosHandler.propose, About, message]

theorem handled_frame {h h' : SinglePaxosHandler (Fin n)} {src : Fin n}
    {content : PaxosMessage.Content} {effects : List (Effect (Fin n))}
    (hhandled : Handled h src content h' effects) : CallFrame h h' effects := by
  cases hhandled with
  | ignored => exact .refl h
  | _ =>
      refine ⟨rfl, rfl, rfl, ?_⟩
      simp [About, message]

theorem dispatch_frame {h h' : SinglePaxosHandler (Fin n)} {src : Fin n}
    {content : PaxosMessage.Content} {effects : List (Effect (Fin n))}
    (hcall : dispatch h src content = .ok (h', effects)) : CallFrame h h' effects :=
  handled_frame (handled_of_dispatch hcall)

/-- Only `learn` writes to the log, and it does nothing else then. -/
theorem setEntry_of_dispatch {h h' : SinglePaxosHandler (Fin n)} {src : Fin n}
    {content : PaxosMessage.Content} {effects : List (Effect (Fin n))}
    (hcall : dispatch h src content = .ok (h', effects)) {index : ℕ} {entry : PaxosLogEntry}
    (hmem : .setEntry index entry ∈ effects) :
    (∃ vrnd vval, content = .learn vrnd vval) ∧ effects = [.setEntry index entry] := by
  cases handled_of_dispatch hcall with
  | @learned vrnd vval value count hvotes hfull =>
      rw [List.mem_singleton.mp hmem]
      exact ⟨⟨vrnd, vval, rfl⟩, rfl⟩
  | _ => simp at hmem

section Index

variable {index : ℕ} {h : SinglePaxosHandler (Fin n)} {effect : Effect (Fin n)}

/-- The packets and events of an effect belong to the index of the instance. -/
theorem About.packetView_of_ne (h_about : About h effect) (hcfg : Configured n index h)
    (hindex : index < 2 ^ 32) {k : ℕ} (hk : k ≠ index) (self : Fin n) :
    ∀ packet ∈ outgoing self effect, packetView k packet = none := by
  have hnat : (UInt32.ofNat h.paxosLogIndex).toNat = index :=
    hcfg.message_index hindex .notSet
  intro packet hpacket
  cases effect with
  | broadcast endpoints message =>
      obtain ⟨dst, -, rfl⟩ := List.mem_map.mp hpacket
      have hmessage : message.paxosIndex = UInt32.ofNat h.paxosLogIndex := h_about
      simp [packetView, hmessage, hnat, hk.symm]
  | send dst message =>
      obtain rfl := List.mem_singleton.mp hpacket
      have hmessage : message.paxosIndex = UInt32.ofNat h.paxosLogIndex := h_about
      simp [packetView, hmessage, hnat, hk.symm]
  | setEntry i entry => simp [outgoing] at hpacket

theorem About.shown_index (h_about : About h effect) (hcfg : Configured n index h)
    (hindex : index < 2 ^ 32) {self : Fin n} {content : PaxosMessage.Content}
    {event : Event n} (hevent : shown self content effect = some event) :
    event.index = index := by
  have hnat : (UInt32.ofNat h.paxosLogIndex).toNat = index :=
    hcfg.message_index hindex .notSet
  cases effect with
  | broadcast endpoints message =>
      have hmessage : message.paxosIndex = UInt32.ofNat h.paxosLogIndex := h_about
      simp only [shown] at hevent
      split at hevent <;> cases hevent <;> simp only [Event.index, hmessage, hnat]
  | send dst message =>
      have hmessage : message.paxosIndex = UInt32.ofNat h.paxosLogIndex := h_about
      simp only [shown] at hevent
      split at hevent <;> cases hevent
      simp only [Event.index, hmessage, hnat]
  | setEntry i entry =>
      have hi : i = h.paxosLogIndex := h_about
      simp only [shown] at hevent
      split at hevent <;> cases hevent
      simp only [Event.index, hi, hcfg.paxosLogIndex]

end Index

/-! ## Handler calls -/

/-- A handler call at node `i` that is a step of the protocol. `rest` is the network
without the message that is handled. -/
structure Matches (ok : List (ℕ × PaxosLogEntry) → Prop) (index : ℕ)
    (t : Synod.State (Fin n) PaxosLogEntry) (i : Fin n)
    (rest : Multiset (Synod.Packet (Fin n) PaxosLogEntry)) (h' : SinglePaxosHandler (Fin n))
    (events : List (Event n)) (packets : List (Packet n))
    (t' : Synod.State (Fin n) PaxosLogEntry) : Prop where
  step : Synod.Step (protocol n ok) t (events.filterMap (eventView index)) t'
  represents : Represents h' (localState t' i)
  others : ∀ i', i' ≠ i → localState t' i' = localState t i'
  network : t'.network = rest + networkView index packets

section Calls

variable (ok : List (ℕ × PaxosLogEntry) → Prop) {index : ℕ} {h : SinglePaxosHandler (Fin n)}
  {t : Synod.State (Fin n) PaxosLogEntry} {i src : Fin n}
  {rest : Multiset (Synod.Packet (Fin n) PaxosLogEntry)}

/-- A message that the handler ignores is lost. -/
theorem matches_ignored (hrep : Represents h (localState t i))
    {packet : Synod.Packet (Fin n) PaxosLogEntry} (hnet : t.network = packet ::ₘ rest) :
    ∃ t', Matches ok index t i rest h [] [] t' := by
  refine ⟨{ t with network := rest }, .lose hnet, hrep, ?_, ?_⟩
  · intro i' hi'
    rfl
  · simp

theorem propose_matches (hrep : Represents h (localState t i)) (hcfg : Configured n index h)
    (hindex : index < 2 ^ 32) (draw : ℕ) (entry : PaxosLogEntry) :
    ∃ t', Matches ok index t i t.network (h.propose draw entry).1 [.proposed i index entry]
      ((h.propose draw entry).2.flatMap (outgoing i)) t' := by
  let r := h.nextProposalNumber draw
  refine ⟨{ t with
    proposal := Function.update t.proposal i ((t.proposal i).insert r entry)
    promises := Function.update t.promises i ((t.promises i).insert r [])
    network := t.network + Synod.broadcast i (.prepare r) }, ?_, ?_, ?_, ?_⟩
  · have hevents : [Event.proposed i index entry].filterMap (eventView index) =
        [.proposed i entry] := filterMap_eventView rfl
    rw [hevents]
    exact .propose i r entry
  · have hproposal := hrep.proposal
    constructor
    · exact hrep.acceptor
    · simp only [localState] at hproposal
      simp [localState, SinglePaxosHandler.propose, hproposal, r]
    · intro l
      have hold := hrep.promises l
      have hnew := hrep.promises r
      simp only [localState] at hold hnew
      simp only [SinglePaxosHandler.propose, localState, Function.update_self,
        KeyMap.insert_apply]
      by_cases hl : l = r
      · subst l
        cases hps : t.promises i r <;> simp_all [r]
      · simp_all [r]
    · exact hrep.tally
  · intro i' hi'
    simp [localState, Function.update_of_ne hi']
  · have hview := networkView_broadcast index i (h.message (.prepare r))
      (hcfg.message_index hindex _) rfl
    simp [SinglePaxosHandler.propose, hcfg.configEndpoints, r, ← hview]

theorem promised_matches (hrep : Represents h (localState t i)) (hcfg : Configured n index h)
    (hindex : index < 2 ^ 32) {rnd : ℕ} (hnet : t.network = ⟨src, i, .prepare rnd⟩ ::ₘ rest)
    (hlt : h.acceptorState.rnd < rnd) {content : PaxosMessage.Content} :
    let effects := [Effect.send src
      (h.message (.promise rnd h.acceptorState.vrnd h.acceptorState.vval))]
    ∃ t', Matches ok index t i rest
      { h with acceptorState := { h.acceptorState with rnd := rnd } }
      (effects.filterMap (shown i content)) (effects.flatMap (outgoing i)) t' := by
  intro effects
  have hacceptor := hrep.acceptor
  simp only [localState] at hacceptor
  have hmessage := hcfg.message_index hindex
    (.promise rnd h.acceptorState.vrnd h.acceptorState.vval)
  refine ⟨{ t with
    acceptor := Function.update t.acceptor i { t.acceptor i with rnd := rnd }
    network := rest +
      {⟨i, src, .promise rnd (t.acceptor i).vrnd (t.acceptor i).vval⟩} }, ?_, ?_, ?_, ?_⟩
  · have hstep := Synod.Step.promise (P := protocol n ok) hnet (by rw [hacceptor]; exact hlt)
    rw [shown_promise hmessage rfl]
    simpa [hacceptor] using hstep
  · refine ⟨?_, hrep.proposal, hrep.promises, hrep.tally⟩
    simp [localState, hacceptor]
  · intro i' hi'
    simp [localState, Function.update_of_ne hi']
  · have hview := networkView_send index i src _ hmessage rfl
    simp [effects, hacceptor, hview]

theorem accepted_matches (hrep : Represents h (localState t i)) (hcfg : Configured n index h)
    (hindex : index < 2 ^ 32) {vrnd : ℕ} {vval : PaxosLogEntry}
    (hnet : t.network = ⟨src, i, .accept vrnd vval⟩ ::ₘ rest)
    (hle : h.acceptorState.rnd ≤ vrnd) {content : PaxosMessage.Content} :
    let effects := [Effect.broadcast h.configEndpoints (h.message (.learn vrnd vval))]
    ∃ t', Matches ok index t i rest { h with acceptorState := ⟨vrnd, vrnd, vval⟩ }
      (effects.filterMap (shown i content)) (effects.flatMap (outgoing i)) t' := by
  intro effects
  have hacceptor := hrep.acceptor
  simp only [localState] at hacceptor
  have hmessage := hcfg.message_index hindex (.learn vrnd vval)
  refine ⟨{ t with
    acceptor := Function.update t.acceptor i ⟨vrnd, vrnd, vval⟩
    network := rest + Synod.broadcast i (.learn vrnd vval) }, ?_, ?_, ?_, ?_⟩
  · have hstep := Synod.Step.accept (P := protocol n ok) hnet (by rw [hacceptor]; exact hle)
    rw [shown_learn hmessage rfl]
    exact hstep
  · refine ⟨?_, hrep.proposal, hrep.promises, hrep.tally⟩
    simp [localState]
  · intro i' hi'
    simp [localState, Function.update_of_ne hi']
  · have hview := networkView_broadcast index i (h.message (.learn vrnd vval)) hmessage rfl
    simp [effects, hcfg.configEndpoints, ← hview]

/-- The counted promises with the sender of the new one. -/
theorem represents_withPromises (hrep : Represents h (localState t i)) {rnd vrnd : ℕ}
    {vval : PaxosLogEntry} (ps : List (Fin n × ℕ × PaxosLogEntry))
    (network : Multiset (Synod.Packet (Fin n) PaxosLogEntry)) :
    Represents (h.withPromises rnd (ps.map Prod.snd ++ [(vrnd, vval)]))
      (localState { t with
        promises := Function.update t.promises i
          ((t.promises i).assign rnd (ps ++ [(src, vrnd, vval)]))
        network := network } i) := by
  refine ⟨hrep.acceptor, hrep.proposal, ?_, hrep.tally⟩
  intro l
  have hl := hrep.promises l
  simp only [localState] at hl
  simp only [withPromises, localState, Function.update_self, KeyMap.assign_apply]
  split
  · simp
  · exact hl

/-- The promises of the handler are those of the protocol without their senders. -/
theorem exists_promises (hrep : Represents h (localState t i)) {rnd : ℕ}
    {promises : List (ℕ × PaxosLogEntry)}
    (hstate : h.proposerState.prepareState rnd = some promises) :
    ∃ ps, t.promises i rnd = some ps ∧ ps.map Prod.snd = promises := by
  have hpromises := hrep.promises rnd
  simpa [localState, hstate, eq_comm] using hpromises

theorem counted_matches (hrep : Represents h (localState t i)) (hcfg : Configured n index h)
    {rnd vrnd : ℕ} {vval : PaxosLogEntry} {promises : List (ℕ × PaxosLogEntry)}
    (hnet : t.network = ⟨src, i, .promise rnd vrnd vval⟩ ::ₘ rest)
    (hstate : h.proposerState.prepareState rnd = some promises)
    (hlt : promises.length + 1 < h.majorityThreshold) :
    ∃ t', Matches ok index t i rest (h.withPromises rnd (promises ++ [(vrnd, vval)]))
      [] [] t' := by
  obtain ⟨ps, hps, rfl⟩ := exists_promises hrep hstate
  have hlen : ps.length + 1 < (protocol n ok).quorum := by
    rw [List.length_map, hcfg.majorityThreshold] at hlt
    exact hlt
  refine ⟨{ t with
    promises := Function.update t.promises i
      ((t.promises i).assign rnd (ps ++ [(src, vrnd, vval)]))
    network := rest }, .count hnet hps hlen, ?_, ?_, ?_⟩
  · exact represents_withPromises hrep ps rest
  · intro i' hi'
    simp [localState, Function.update_of_ne hi']
  · simp

theorem opened_matches (hrep : Represents h (localState t i)) (hcfg : Configured n index h)
    (hindex : index < 2 ^ 32) {rnd vrnd : ℕ} {vval own : PaxosLogEntry}
    {promises : List (ℕ × PaxosLogEntry)}
    (hnet : t.network = ⟨src, i, .promise rnd vrnd vval⟩ ::ₘ rest)
    (hstate : h.proposerState.prepareState rnd = some promises)
    (hfull : promises.length + 1 = h.majorityThreshold)
    (hown : h.proposerState.proposal rnd = some own)
    (hok : ok (promises ++ [(vrnd, vval)])) {content : PaxosMessage.Content} :
    let effects := [Effect.broadcast h.configEndpoints
      (h.message (.accept rnd (proposalValue own (promises ++ [(vrnd, vval)]))))]
    ∃ t', Matches ok index t i rest (h.withPromises rnd (promises ++ [(vrnd, vval)]))
      (effects.filterMap (shown i content)) (effects.flatMap (outgoing i)) t' := by
  intro effects
  obtain ⟨ps, hps, rfl⟩ := exists_promises hrep hstate
  have hproposal := hrep.proposal
  simp only [localState] at hproposal
  have hselect : (ps ++ [(src, vrnd, vval)]).map Prod.snd =
      ps.map Prod.snd ++ [(vrnd, vval)] := by simp
  have hmessage := hcfg.message_index hindex
    (.accept rnd (proposalValue own (ps.map Prod.snd ++ [(vrnd, vval)])))
  have hlen : ps.length + 1 = (protocol n ok).quorum := by
    rw [List.length_map, hcfg.majorityThreshold] at hfull
    exact hfull
  have hallowed : ok ((ps ++ [(src, vrnd, vval)]).map Prod.snd) := by
    rw [hselect]
    exact hok
  have hstep := Synod.Step.open (P := protocol n ok) hnet hps hlen (hproposal ▸ hown) hallowed
  simp only [protocol, hselect] at hstep
  refine ⟨{ t with
    promises := Function.update t.promises i
      ((t.promises i).assign rnd (ps ++ [(src, vrnd, vval)]))
    network := rest + Synod.broadcast i
      (.accept rnd (proposalValue own (ps.map Prod.snd ++ [(vrnd, vval)]))) },
    ?_, ?_, ?_, ?_⟩
  · rw [shown_accept hmessage rfl]
    exact hstep
  · exact represents_withPromises hrep ps _
  · intro i' hi'
    simp [localState, Function.update_of_ne hi']
  · have hview := networkView_broadcast index i _ hmessage rfl
    simp [effects, hcfg.configEndpoints, ← hview]

/-- The voters behind a count. -/
theorem exists_votes (hrep : Represents h (localState t i)) {vrnd count : ℕ}
    {vval value : PaxosLogEntry}
    (hvotes : (h.learnerState.learnedValue vrnd).getD (vval, 0) = (value, count)) :
    ∃ as, (t.tally i vrnd).getD (vval, []) = (value, as) ∧ as.length = count := by
  have htally := hrep.tally vrnd
  simp only [localState] at htally
  rw [htally] at hvotes
  cases hvrnd : t.tally i vrnd with
  | none =>
      rw [hvrnd] at hvotes
      cases hvotes
      exact ⟨[], rfl, rfl⟩
  | some votes =>
      rw [hvrnd] at hvotes
      cases hvotes
      exact ⟨votes.2, rfl, rfl⟩

theorem represents_withVotes (hrep : Represents h (localState t i)) (learned : Bool)
    {vrnd : ℕ} {value : PaxosLogEntry} (as : List (Fin n)) :
    Represents (h.withVotes learned vrnd (value, as.length + 1))
      (localState { t with
        tally := Function.update t.tally i
          ((t.tally i).assign vrnd (value, as ++ [src]))
        network := rest } i) := by
  refine ⟨hrep.acceptor, hrep.proposal, hrep.promises, ?_⟩
  intro l
  have hl := hrep.tally l
  simp only [localState] at hl
  simp only [withVotes, localState, Function.update_self, KeyMap.assign_apply]
  split
  · simp
  · exact hl

theorem heard_matches (hrep : Represents h (localState t i)) (hcfg : Configured n index h)
    {vrnd count : ℕ} {vval value : PaxosLogEntry}
    (hnet : t.network = ⟨src, i, .learn vrnd vval⟩ ::ₘ rest)
    (hvotes : (h.learnerState.learnedValue vrnd).getD (vval, 0) = (value, count))
    (hlt : count + 1 < h.majorityThreshold) :
    ∃ t', Matches ok index t i rest (h.withVotes false vrnd (value, count + 1)) [] [] t' := by
  obtain ⟨as, has, rfl⟩ := exists_votes hrep hvotes
  rw [hcfg.majorityThreshold] at hlt
  refine ⟨{ t with
    tally := Function.update t.tally i ((t.tally i).assign vrnd (value, as ++ [src]))
    network := rest }, .hear hnet has hlt, ?_, ?_, ?_⟩
  · exact represents_withVotes hrep false as
  · intro i' hi'
    simp [localState, Function.update_of_ne hi']
  · simp

theorem learned_matches (hrep : Represents h (localState t i)) (hcfg : Configured n index h)
    {vrnd count : ℕ} {vval value : PaxosLogEntry}
    (hnet : t.network = ⟨src, i, .learn vrnd vval⟩ ::ₘ rest)
    (hvotes : (h.learnerState.learnedValue vrnd).getD (vval, 0) = (value, count))
    (hfull : count + 1 = h.majorityThreshold) :
    let effects := [Effect.setEntry h.paxosLogIndex value]
    ∃ t', Matches ok index t i rest (h.withVotes true vrnd (value, count + 1))
      (effects.filterMap (shown i (.learn vrnd vval))) (effects.flatMap (outgoing i)) t' := by
  intro effects
  obtain ⟨as, has, rfl⟩ := exists_votes hrep hvotes
  rw [hcfg.majorityThreshold] at hfull
  refine ⟨{ t with
    tally := Function.update t.tally i ((t.tally i).assign vrnd (value, as ++ [src]))
    network := rest }, ?_, ?_, ?_, ?_⟩
  · have hstep := Synod.Step.learn (P := protocol n ok) hnet has hfull
    simpa [effects, shown, eventView, Event.index, Event.body, hcfg.paxosLogIndex] using hstep
  · exact represents_withVotes hrep true as
  · intro i' hi'
    simp [localState, Function.update_of_ne hi']
  · simp [effects, outgoing]

/-- Every handler call for a message about the instance is a step of the protocol. -/
theorem dispatch_matches (hrep : Represents h (localState t i)) (hcfg : Configured n index h)
    (hindex : index < 2 ^ 32) {content : PaxosMessage.Content}
    {body : Synod.Body PaxosLogEntry} (hbody : contentView content = some body)
    (hnet : t.network = ⟨src, i, body⟩ ::ₘ rest)
    (hok : ∀ rnd vrnd vval promises, content = .promise rnd vrnd vval →
      h.proposerState.prepareState rnd = some promises →
      promises.length + 1 = h.majorityThreshold → ok (promises ++ [(vrnd, vval)]))
    {h' : SinglePaxosHandler (Fin n)} {effects : List (Effect (Fin n))}
    (hcall : dispatch h src content = .ok (h', effects)) :
    ∃ t', Matches ok index t i rest h' (effects.filterMap (shown i content))
      (effects.flatMap (outgoing i)) t' := by
  cases handled_of_dispatch hcall with
  | ignored content => exact matches_ignored ok hrep hnet
  | promised hlt =>
      cases hbody
      exact promised_matches ok hrep hcfg hindex hnet hlt
  | counted hstate hlt =>
      cases hbody
      exact counted_matches ok hrep hcfg hnet hstate hlt
  | opened hstate hfull hown =>
      cases hbody
      exact opened_matches ok hrep hcfg hindex hnet hstate hfull hown
        (hok _ _ _ _ rfl hstate hfull)
  | accepted hle =>
      cases hbody
      exact accepted_matches ok hrep hcfg hindex hnet hle
  | heard hvotes hlt =>
      cases hbody
      exact heard_matches ok hrep hcfg hnet hvotes hlt
  | learned hvotes hfull =>
      cases hbody
      exact learned_matches ok hrep hcfg hnet hvotes hfull

end Calls

end UniversalDB.Group
