import Mathlib.Tactic.Abel
import UniversalDB.Verification.Group.Calls
import UniversalDB.Verification.SlaveGroup.Projection

/-! # Every log of the slaves is a group of its own -/

namespace UniversalDB.SlaveGroup

variable {n : ℕ}

/-! ## Steps of a group whose network is a multiset -/

section Group

variable {trace : List (Group.Event n)} {g : Group.State n}
  {rest : Multiset (Group.Packet n)}

theorem exists_position {packet : Group.Packet n}
    (hview : (g.network : Multiset (Group.Packet n)) = packet ::ₘ rest) :
    ∃ position, g.network[position]? = some packet ∧
      (↑(g.network.eraseIdx position) : Multiset (Group.Packet n)) = rest := by
  have hmem : packet ∈ g.network := by
    rw [← Multiset.mem_coe, hview]
    exact Multiset.mem_cons_self _ _
  obtain ⟨position, hpacket⟩ := List.mem_iff_getElem?.mp hmem
  refine ⟨position, hpacket, ?_⟩
  obtain ⟨hlt, rfl⟩ := List.getElem?_eq_some_iff.mp hpacket
  have hperm : (g.network[position] :: g.network.eraseIdx position).Perm g.network :=
    List.getElem_cons_eraseIdx_perm hlt
  have hcons := Multiset.coe_eq_coe.mpr hperm
  rw [← Multiset.cons_coe, hview] at hcons
  exact (Multiset.cons_inj_right _).mp hcons

/-- A packet is delivered. -/
theorem group_deliver (hrun : (Group.machine n).system.Run trace g) {packet : Group.Packet n}
    (hview : (g.network : Multiset (Group.Packet n)) = packet ::ₘ rest) :
    ∃ node events packets g',
      (g.nodes packet.dst).handle packet = .ok (node, events, packets) ∧
      (Group.machine n).system.Run (trace ++ events) g' ∧
      g'.nodes = Function.update g.nodes packet.dst node ∧
      (g'.network : Multiset (Group.Packet n)) = rest + ↑packets := by
  obtain ⟨position, hpacket, hrest⟩ := exists_position hview
  have hreachable : Group.Reachable g := ⟨trace, hrun⟩
  obtain ⟨node, events, packets, hhandle, -⟩ :=
    hreachable.handle_ok (List.mem_of_getElem? hpacket)
  have hnext := hreachable.next_deliver hpacket hhandle
  refine ⟨node, events, packets, _, hhandle, hrun.step ⟨.deliver position, trivial, hnext⟩, rfl, ?_⟩
  rw [← hrest, ← Multiset.coe_add]

theorem group_drop (hrun : (Group.machine n).system.Run trace g) {packet : Group.Packet n}
    (hview : (g.network : Multiset (Group.Packet n)) = packet ::ₘ rest) :
    ∃ g', (Group.machine n).system.Run trace g' ∧ g'.nodes = g.nodes ∧
      (g'.network : Multiset (Group.Packet n)) = rest := by
  obtain ⟨position, hpacket, hrest⟩ := exists_position hview
  have hnext : Group.next g (.drop position) =
      some ([], { g with network := g.network.eraseIdx position }) := by
    simp only [Group.next, hpacket]
  have hrun' := hrun.step ⟨.drop position, trivial, hnext⟩
  rw [List.append_nil] at hrun'
  exact ⟨_, hrun', rfl, hrest⟩

theorem group_propose (hrun : (Group.machine n).system.Run trace g) {i : Fin n} {index : ℕ}
    (hindex : (g.nodes i).paxosLog.nextAvailableIndex = .ok index) (hlt : index < 2 ^ 32)
    {draw : ℕ} (hdraw : draw ≤ 999) (entry : PaxosLogEntry) :
    ∃ node events packets g',
      (g.nodes i).propose i index draw entry = .ok (node, events, packets) ∧
      (Group.machine n).system.Run (trace ++ events) g' ∧
      g'.nodes = Function.update g.nodes i node ∧
      (g'.network : Multiset (Group.Packet n)) = ↑g.network + ↑packets := by
  have hreachable : Group.Reachable g := ⟨trace, hrun⟩
  have hgap := (hreachable.wellFormed i).nextAvailableIndex_eq.mp hindex
  obtain ⟨node, events, packets, hpropose⟩ : ∃ node events packets,
      (g.nodes i).propose i index draw entry = .ok (node, events, packets) :=
    ⟨_, _, _, hreachable.propose_ok i hgap draw entry⟩
  have hnext : Group.next g (.propose i draw entry) =
      some (events, ⟨Function.update g.nodes i node, g.network ++ packets⟩) := by
    simp only [Group.next, hindex]
    rw [if_pos ⟨hdraw, by rw [hreachable.live]; rfl⟩, if_pos hlt, hpropose]
    rfl
  exact ⟨node, events, packets, _, hpropose,
    hrun.step ⟨.propose i draw entry, trivial, hnext⟩, rfl, (Multiset.coe_add _ _).symm⟩

theorem group_sync (hrun : (Group.machine n).system.Run trace g) (i : Fin n) :
    ∃ g', (Group.machine n).system.Run trace g' ∧ g'.nodes = g.nodes ∧
      (g'.network : Multiset (Group.Packet n)) = ↑g.network + ↑((g.nodes i).sync i) := by
  have hreachable : Group.Reachable g := ⟨trace, hrun⟩
  have hnext : Group.next g (.sync i) =
      some ([], { g with network := g.network ++ (g.nodes i).sync i }) := by
    simp only [Group.next]
    rw [if_pos (by rw [hreachable.live]; rfl)]
  have hrun' := hrun.step ⟨.sync i, trivial, hnext⟩
  rw [List.append_nil] at hrun'
  exact ⟨_, hrun', rfl, (Multiset.coe_add _ _).symm⟩

end Group

/-! ## The groups of a state -/

/-- A state of a group is what a state of the slaves holds for one log. -/
structure Holds (log : LogId) (s : State n) (g : Group.State n) : Prop where
  nodes : ∀ i, g.nodes i = nodeAt log (s.slaves i)
  network : (g.network : Multiset (Group.Packet n)) = packetsOf log s

/-- The event of a log, without the log. -/
def eventOf (log : LogId) (event : Event n) : Option (Group.Event n) :=
  if event.1 = log then some event.2 else none

/-- Every log is a group of its own, and no handler of its messages has thrown. -/
structure Separate (trace : List (Event n)) (s : State n) : Prop where
  exception : ∀ i, (s.slaves i).exception = none
  logs : ∀ log, ∃ g, (Group.machine n).system.Run (trace.filterMap (eventOf log)) g ∧
    Holds log s g

theorem filterMap_eventOf (log log' : LogId) (events : List (Group.Event n)) :
    (events.map fun event => (log', event)).filterMap (eventOf log) =
      if log' = log then events else [] := by
  rw [List.filterMap_map]
  have hview : eventOf log ∘ (fun event : Group.Event n => (log', event)) =
      fun event => if log' = log then some event else none := rfl
  rw [hview]
  by_cases hlog : log' = log
  · simp [hlog]
  · simp [hlog]

section Step

variable {trace : List (Event n)} {s s' : State n}

/-- A step that leaves every log alone and at most loses a packet of it. -/
theorem Separate.quiet (h : Separate trace s) (hlive : ∀ i, (s'.slaves i).exception = none)
    (hnodes : ∀ log i, nodeAt log (s'.slaves i) = nodeAt log (s.slaves i))
    (hpackets : ∀ log, packetsOf log s' = packetsOf log s ∨
      ∃ packet, packetsOf log s = packet ::ₘ packetsOf log s') : Separate trace s' := by
  refine ⟨hlive, ?_⟩
  intro log
  obtain ⟨g, hrun, hholds⟩ := h.logs log
  rcases hpackets log with hsame | ⟨packet, hlost⟩
  · refine ⟨g, hrun, ?_, ?_⟩
    · intro i
      rw [hnodes, hholds.nodes]
    · rw [hsame, hholds.network]
  · obtain ⟨g', hrun', hnodes', hnetwork'⟩ := group_drop hrun (hholds.network.trans hlost)
    refine ⟨g', hrun', ?_, hnetwork'⟩
    intro i
    rw [hnodes', hnodes, hholds.nodes]

/-- A step that is a step of one log. -/
theorem Separate.acted (h : Separate trace s) (hlive : ∀ i, (s'.slaves i).exception = none)
    {log : LogId} {events : List (Group.Event n)} {g' : Group.State n}
    (hrun : (Group.machine n).system.Run (trace.filterMap (eventOf log) ++ events) g')
    (hholds : Holds log s' g')
    (hnodes : ∀ log' ≠ log, ∀ i, nodeAt log' (s'.slaves i) = nodeAt log' (s.slaves i))
    (hpackets : ∀ log' ≠ log, packetsOf log' s' = packetsOf log' s) :
    Separate (trace ++ events.map fun event => (log, event)) s' := by
  refine ⟨hlive, ?_⟩
  intro log'
  rw [List.filterMap_append, filterMap_eventOf]
  by_cases hlog : log = log'
  · subst log'
    rw [if_pos rfl]
    exact ⟨g', hrun, hholds⟩
  · have hne : log' ≠ log := fun heq => hlog heq.symm
    obtain ⟨g, hrun', hholds'⟩ := h.logs log'
    rw [if_neg hlog, List.append_nil]
    refine ⟨g, hrun', ?_, ?_⟩
    · intro i
      rw [hnodes log' hne, hholds'.nodes]
    · rw [hpackets log' hne, hholds'.network]

/-! ## Steps of one log -/

/-- The state after a call on a log. -/
def State.install (s : State n) (i : Fin n) (log : LogId) (node : Group.Node n)
    (packets : List (Group.Packet n)) : State n :=
  ⟨Function.update s.slaves i ((s.slaves i).setLog node log),
    s.network ++ packets.map (wrapPacket log)⟩

theorem finish_ok (s : State n) (i : Fin n) (slave : Slave n) (log : LogId)
    (network : List (Envelope n)) (node : Group.Node n) (events : List (Group.Event n))
    (packets : List (Group.Packet n)) :
    s.finish i slave log network (.ok (node, events, packets)) =
      (events.map fun event => (log, event),
        (⟨Function.update s.slaves i slave, network⟩ : State n).install i log node packets) := by
  simp [State.finish, State.install]

section Install

variable {i : Fin n} {log : LogId} {node : Group.Node n} {packets : List (Group.Packet n)}

theorem live_install (hlive : ∀ j, (s.slaves j).exception = none) (j : Fin n) :
    ((s.install i log node packets).slaves j).exception = none := by
  by_cases hj : j = i
  · simp [State.install, hj, hlive]
  · simp [State.install, hj, hlive]

theorem nodeAt_install (hsome : ((s.slaves i).log log).isSome) (log' : LogId) (j : Fin n) :
    nodeAt log' ((s.install i log node packets).slaves j) =
      if log' = log ∧ j = i then node else nodeAt log' (s.slaves j) := by
  by_cases hj : j = i
  · subst j
    simp only [State.install, Function.update_self, nodeAt, log_setLog hsome]
    by_cases hlog : log' = log
    · simp [hlog]
    · simp [hlog]
  · simp [State.install, hj]

theorem packetsOf_install (log' : LogId) :
    packetsOf log' (s.install i log node packets) =
      packetsOf log' s + if log' = log then ↑packets else 0 := by
  simp only [packetsOf, State.install, flying_append, flying_wrapPacket]
  rw [sum_queuedAt_update, queuedAt_setLog, ← sum_queuedAt, add_right_comm]

end Install

/-- A packet of a log is handled, which is taken off the network or out of a queue first. -/
theorem Separate.handled (h : Separate trace s) {s₀ : State n} {log : LogId}
    {packet : Group.Packet n} (hlive : ∀ j, (s₀.slaves j).exception = none)
    (hnodes : ∀ log j, nodeAt log (s₀.slaves j) = nodeAt log (s.slaves j))
    (hsome : ((s₀.slaves packet.dst).log log).isSome)
    (htaken : packetsOf log s = packet ::ₘ packetsOf log s₀)
    (hothers : ∀ log' ≠ log, packetsOf log' s₀ = packetsOf log' s) :
    ∃ node events packets,
      (nodeAt log (s.slaves packet.dst)).handle packet = .ok (node, events, packets) ∧
      Separate (trace ++ events.map fun event => (log, event))
        (s₀.install packet.dst log node packets) := by
  obtain ⟨g, hrun, hholds⟩ := h.logs log
  obtain ⟨node, events, packets, g', hhandle, hrun', hnodes', hnetwork'⟩ :=
    group_deliver hrun (hholds.network.trans htaken)
  rw [hholds.nodes] at hhandle
  refine ⟨node, events, packets, hhandle, h.acted (live_install hlive) hrun' ⟨?_, ?_⟩ ?_ ?_⟩
  · intro j
    rw [nodeAt_install hsome, hnodes', hnodes]
    by_cases hj : j = packet.dst
    · simp [hj]
    · simp [hj, hholds.nodes]
  · rw [packetsOf_install, if_pos rfl, hnetwork']
  · intro log' hlog j
    rw [nodeAt_install hsome, if_neg (fun heq => hlog heq.1), hnodes]
  · intro log' hlog
    rw [packetsOf_install, if_neg hlog, add_zero, hothers log' hlog]

theorem Separate.proposed (h : Separate trace s) {i : Fin n} {log : LogId}
    {node : Group.Node n} (hnode : (s.slaves i).log log = some node) {draw : ℕ}
    (hdraw : draw ≤ 999) {entry : PaxosLogEntry} {events : List (Event n)}
    (hnext : nextProposal s i log node draw entry = some (events, s')) :
    Separate (trace ++ events) s' := by
  obtain ⟨g, hrun, hholds⟩ := h.logs log
  have hg : g.nodes i = node := by
    rw [hholds.nodes, nodeAt, hnode]
    rfl
  obtain ⟨index, hindex, -⟩ := (Group.Reachable.wellFormed ⟨_, hrun⟩ i).nextAvailableIndex
  have hindex' := hindex
  rw [hg] at hindex'
  simp only [nextProposal, hindex'] at hnext
  split at hnext
  · rename_i hlt
    obtain ⟨node', events', packets, g', hpropose, hrun', hnodes', hnetwork'⟩ :=
      group_propose hrun hindex hlt hdraw entry
    rw [hg] at hpropose
    rw [hpropose, finish_ok, Function.update_eq_self] at hnext
    cases hnext
    have hsome : ((s.slaves i).log log).isSome := by
      rw [hnode]
      rfl
    refine h.acted (live_install h.exception) hrun' ⟨?_, ?_⟩ ?_ ?_
    · intro j
      rw [nodeAt_install hsome, hnodes']
      by_cases hj : j = i
      · simp [hj]
      · simp [hj, hholds.nodes]
    · rw [packetsOf_install, if_pos rfl, hnetwork', hholds.network]
    · intro log' hlog j
      rw [nodeAt_install hsome, if_neg (fun heq => hlog heq.1)]
    · intro log' hlog
      rw [packetsOf_install, if_neg hlog, add_zero]
  · cases hnext

theorem Separate.synced (h : Separate trace s) {i : Fin n} {log : LogId}
    {node : Group.Node n} (hnode : (s.slaves i).log log = some node) :
    Separate trace { s with network := s.network ++ (node.sync i).map (wrapPacket log) } := by
  have hpackets : ∀ log', packetsOf log'
      { s with network := s.network ++ (node.sync i).map (wrapPacket log) } =
        packetsOf log' s + if log' = log then ↑(node.sync i) else 0 := by
    intro log'
    simp only [packetsOf, flying_append, flying_wrapPacket]
    rw [add_right_comm]
  refine ⟨h.exception, ?_⟩
  intro log'
  obtain ⟨g, hrun, hholds⟩ := h.logs log'
  by_cases hlog : log' = log
  · subst log'
    have hg : g.nodes i = node := by
      rw [hholds.nodes, nodeAt, hnode]
      rfl
    obtain ⟨g', hrun', hnodes', hnetwork'⟩ := group_sync hrun i
    refine ⟨g', hrun', ?_, ?_⟩
    · intro j
      rw [hnodes', hholds.nodes]
    · rw [hnetwork', hg, hholds.network, hpackets, if_pos rfl]
  · refine ⟨g, hrun, hholds.nodes, ?_⟩
    rw [hholds.network, hpackets, if_neg hlog, add_zero]

/-! ## Messages -/

section Deliver

variable {position : ℕ} {envelope : Envelope n}

theorem packetsOf_eraseIdx (log : LogId) (henvelope : s.network[position]? = some envelope) :
    packetsOf log s =
      carried log envelope + packetsOf log ⟨s.slaves, s.network.eraseIdx position⟩ := by
  simp only [packetsOf]
  rw [flying_eraseIdx log henvelope, add_assoc]

theorem carried_cases (log : LogId) (envelope : Envelope n) :
    carried log envelope = 0 ∨ ∃ packet, carried log envelope = {packet} := by
  rw [carried]
  cases packetFor log envelope with
  | none => exact .inl rfl
  | some packet => exact .inr ⟨packet, rfl⟩

/-- An envelope is lost, or its receiver ignores it. -/
theorem Separate.lose (h : Separate trace s)
    (henvelope : s.network[position]? = some envelope) :
    Separate trace ⟨s.slaves, s.network.eraseIdx position⟩ := by
  refine h.quiet h.exception (fun _ _ => rfl) ?_
  intro log
  have hpackets := packetsOf_eraseIdx log henvelope
  rcases carried_cases log envelope with hnone | ⟨packet, hsome⟩
  · rw [hnone, zero_add] at hpackets
    exact .inl hpackets.symm
  · rw [hsome, Multiset.singleton_add] at hpackets
    exact .inr ⟨packet, hpackets⟩

/-- A message for the log of the slave itself. -/
theorem Separate.deliver_slave (h : Separate trace s) {src dst : Fin n}
    {message : MessageWrapper} (henvelope : s.network[position]? = some ⟨src, dst, message⟩)
    {payload : Group.Payload}
    (hpayload : ∀ log, payloadFor log message = if log = .slave then some payload else none)
    {result : List (Event n) × State n}
    (hresult : s.finish dst (s.slaves dst) .slave (s.network.eraseIdx position)
      ((s.slaves dst).node.handle ⟨src, dst, payload⟩) = result) :
    Separate (trace ++ result.1) result.2 := by
  have htaken : packetsOf .slave s = ⟨src, dst, payload⟩ ::ₘ
      packetsOf .slave ⟨s.slaves, s.network.eraseIdx position⟩ := by
    rw [packetsOf_eraseIdx .slave henvelope, carried_of_some (by rw [hpayload, if_pos rfl]),
      Multiset.singleton_add]
  have hothers : ∀ log ≠ LogId.slave,
      packetsOf log ⟨s.slaves, s.network.eraseIdx position⟩ = packetsOf log s := by
    intro log hlog
    rw [packetsOf_eraseIdx log henvelope, carried_of_none (by rw [hpayload, if_neg hlog]),
      zero_add]
  have hlive : ∀ j, ((⟨s.slaves, s.network.eraseIdx position⟩ : State n).slaves j).exception =
      none := h.exception
  obtain ⟨node, events, packets, hhandle, hseparate⟩ :=
    h.handled hlive (fun _ _ => rfl) rfl htaken hothers
  have hnode : nodeAt .slave (s.slaves dst) = (s.slaves dst).node := rfl
  rw [hnode] at hhandle
  rw [hhandle, finish_ok, Function.update_eq_self] at hresult
  cases hresult
  exact hseparate

theorem slaves_update {α : Type} {i : Fin n} {slave : Slave n} {f : Slave n → α}
    (hf : f slave = f (s.slaves i)) (j : Fin n) :
    f (Function.update s.slaves i slave j) = f (s.slaves j) := by
  by_cases hj : j = i
  · rw [hj, Function.update_self, hf]
  · rw [Function.update_of_ne hj]

/-- A change of one slave that leaves its logs alone, where a packet may go from the network
into a queue. -/
theorem Separate.update (h : Separate trace s) {i : Fin n} {slave : Slave n}
    {network : List (Envelope n)} (hlive : slave.exception = (s.slaves i).exception)
    (hnode : ∀ log, nodeAt log slave = nodeAt log (s.slaves i))
    (hpackets : ∀ log, flying log s.network + queuedAt log i (s.slaves i) =
      flying log network + queuedAt log i slave) :
    Separate trace ⟨Function.update s.slaves i slave, network⟩ := by
  refine h.quiet ?_ (fun log => slaves_update (hnode log)) ?_
  · intro j
    rw [slaves_update hlive]
    exact h.exception j
  · intro log
    have hzero := hpackets log
    rw [← zero_add (flying log network + queuedAt log i slave)] at hzero
    have htaken := packetsOf_update hzero
    rw [zero_add] at htaken
    exact .inl htaken.symm

/-- A message for a tablet waits in the queue of its participant, or is lost if there is
none. -/
theorem Separate.deliver_tablet (h : Separate trace s) {src dst : Fin n}
    {message : TabletMessage}
    (henvelope : s.network[position]? = some ⟨src, dst, .tabletMessage message⟩) :
    Separate trace ⟨Function.update s.slaves dst
      ((s.slaves dst).handleTabletMessage src message), s.network.eraseIdx position⟩ := by
  cases htp : (s.slaves dst).tpMap (Server.convert message.range) with
  | none =>
      have hsame : (s.slaves dst).handleTabletMessage src message = s.slaves dst := by
        simp [Slave.handleTabletMessage, htp]
      rw [hsame, Function.update_eq_self]
      exact h.lose henvelope
  | some tp =>
      refine h.update ?_ (nodeAt_handleTabletMessage src message) ?_
      · simp [Slave.handleTabletMessage, htp]
      · intro log
        rw [queuedAt_handleTabletMessage htp src dst, flying_eraseIdx log henvelope]
        abel

theorem Separate.deliver (h : Separate trace s)
    (henvelope : s.network[position]? = some envelope) {result : List (Event n) × State n}
    (hresult : s.handle (s.network.eraseIdx position) envelope = result) :
    Separate (trace ++ result.1) result.2 := by
  obtain ⟨src, dst, message⟩ := envelope
  have hslave : ∀ payload log, payloadFor log (wrap .slave payload) =
      if log = .slave then some payload else none := fun payload log =>
    payloadFor_wrap log .slave payload
  cases message with
  | notSet =>
      cases hresult
      exact (List.append_nil trace).symm ▸ h.lose henvelope
  | tabletMessage message =>
      cases hresult
      exact (List.append_nil trace).symm ▸ h.deliver_tablet henvelope
  | slaveMessage message =>
      cases message with
      | notSet =>
          cases hresult
          exact (List.append_nil trace).symm ▸ h.lose henvelope
      | heartbeat =>
          cases hresult
          refine (List.append_nil trace).symm ▸ h.update rfl (fun log => by cases log <;> rfl) ?_
          intro log
          have hnone : payloadFor log (.slaveMessage .heartbeat) = none := by
            cases log <;> rfl
          rw [flying_eraseIdx log henvelope, carried_of_none hnone, zero_add]
          cases log <;> rfl
      | paxosMessage message =>
          exact h.deliver_slave henvelope (hslave (.paxosMessage message)) hresult
      | syncRequest request =>
          exact h.deliver_slave henvelope (hslave (.syncRequest request)) hresult
      | syncResponse response =>
          exact h.deliver_slave henvelope (hslave (.syncResponse response)) hresult

end Deliver

/-! ## Queues -/

section Queue

variable {i src : Fin n} {tabletId : TabletId} {node : Group.Node n} {message : TabletMessage}
  {queue : List (Fin n × TabletMessage)} {result : List (Event n) × State n}

theorem payloadFor_tabletMessage (hrange : Server.convert message.range = tabletId)
    (log : LogId) : payloadFor log (.tabletMessage message) =
      if log = .tablet tabletId then contentPayload message.content else none := by
  cases log with
  | slave => rfl
  | tablet tabletId' => simp [payloadFor, hrange, eq_comm]

/-- A queued message is handled by the participant. -/
theorem Separate.handle_payload (h : Separate trace s)
    (htp : (s.slaves i).tpMap tabletId = some ⟨node, (src, message) :: queue⟩)
    (hrange : Server.convert message.range = tabletId) {payload : Group.Payload}
    (hpayload : contentPayload message.content = some payload)
    (hresult : s.finish i ((s.slaves i).setQueue tabletId node queue) (.tablet tabletId)
      s.network (node.handle ⟨src, i, payload⟩) = result) :
    Separate (trace ++ result.1) result.2 := by
  let s₀ : State n :=
    ⟨Function.update s.slaves i ((s.slaves i).setQueue tabletId node queue), s.network⟩
  have hview := payloadFor_tabletMessage hrange
  have hpackets : ∀ log, packetsOf log s =
      carried log ⟨src, i, .tabletMessage message⟩ + packetsOf log s₀ := by
    intro log
    apply packetsOf_update
    rw [queuedAt_cons htp hrange log, add_left_comm]
  have htaken : packetsOf (.tablet tabletId) s =
      ⟨src, i, payload⟩ ::ₘ packetsOf (.tablet tabletId) s₀ := by
    rw [hpackets, carried_of_some (by rw [hview, if_pos rfl, hpayload]), Multiset.singleton_add]
  have hothers : ∀ log ≠ LogId.tablet tabletId, packetsOf log s₀ = packetsOf log s := by
    intro log hlog
    rw [hpackets, carried_of_none (by rw [hview, if_neg hlog]), zero_add]
  have hlive : ∀ j, (s₀.slaves j).exception = none := by
    intro j
    have hexception : ((s.slaves i).setQueue tabletId node queue).exception =
        (s.slaves i).exception := rfl
    exact (slaves_update hexception j).trans (h.exception j)
  obtain ⟨node', events, packets, hhandle, hseparate⟩ :=
    h.handled hlive (fun log j => slaves_update (f := nodeAt log) (nodeAt_setQueue htp log) j)
      (by simp [s₀, Slave.log, Slave.setQueue]) htaken hothers
  have hnode : nodeAt (.tablet tabletId) (s.slaves i) = node := by
    simp [nodeAt, Slave.log, htp]
  rw [hnode] at hhandle
  rw [hhandle, finish_ok] at hresult
  cases hresult
  exact hseparate

/-- The first message in the queue of a participant is handled. -/
theorem Separate.handleQueued (h : Separate trace s) (haddressed : ∀ i, (s.slaves i).Addressed)
    (htp : (s.slaves i).tpMap tabletId = some ⟨node, (src, message) :: queue⟩)
    (hresult : s.handleQueued i tabletId ⟨node, (src, message) :: queue⟩ src message queue =
      result) : Separate (trace ++ result.1) result.2 := by
  have hrange : Server.convert message.range = tabletId :=
    haddressed i tabletId _ htp (src, message) List.mem_cons_self
  cases hcontent : message.content with
  | notSet =>
      simp only [State.handleQueued, hcontent] at hresult
      cases hresult
      refine (List.append_nil trace).symm ▸ h.update rfl (nodeAt_setQueue htp) ?_
      intro log
      have hnone : payloadFor log (.tabletMessage message) = none := by
        rw [payloadFor_tabletMessage hrange, hcontent]
        split <;> rfl
      rw [queuedAt_cons htp hrange log, carried_of_none hnone, zero_add]
      rfl
  | paxosMessage paxosMessage =>
      simp only [State.handleQueued, hcontent] at hresult
      exact h.handle_payload htp hrange (by rw [hcontent]; rfl) hresult
  | syncRequest request =>
      simp only [State.handleQueued, hcontent] at hresult
      exact h.handle_payload htp hrange (by rw [hcontent]; rfl) hresult
  | syncResponse response =>
      simp only [State.handleQueued, hcontent] at hresult
      exact h.handle_payload htp hrange (by rw [hcontent]; rfl) hresult

end Queue

theorem Separate.heartbeat (h : Separate trace s) (i : Fin n) :
    Separate trace (s.heartbeat i) := by
  refine h.update rfl (fun log => by cases log <;> rfl) ?_
  intro log
  have hnone : (packetFor log ∘ fun dst => (⟨i, dst, .slaveMessage .heartbeat⟩ : Envelope n)) =
      fun _ => none := by
    funext dst
    cases log <;> rfl
  rw [flying_append, flying, flying, List.filterMap_map, hnone]
  cases log <;> simp [queuedAt]

/-! ## Messages are queued with the participant they are for -/

theorem addressed_update (h : ∀ i, (s.slaves i).Addressed) (i : Fin n) {slave : Slave n}
    (hslave : slave.Addressed) (j : Fin n) :
    (Function.update s.slaves i slave j).Addressed := by
  by_cases hj : j = i
  · rw [hj, Function.update_self]
    exact hslave
  · rw [Function.update_of_ne hj]
    exact h j

theorem addressed_finish (h : ∀ i, (s.slaves i).Addressed) (i : Fin n) {slave : Slave n}
    (hslave : slave.Addressed) (log : LogId) (network : List (Envelope n))
    (outcome : Group.Outcome n) (j : Fin n) :
    ((s.finish i slave log network outcome).2.slaves j).Addressed := by
  cases outcome with
  | error exception =>
      have hstopped : ({ slave with exception := some exception } : Slave n).Addressed := hslave
      exact addressed_update h i hstopped j
  | ok result => exact addressed_update h i (hslave.setLog log) j

theorem addressed_handle (h : ∀ i, (s.slaves i).Addressed) (network : List (Envelope n))
    (envelope : Envelope n) (j : Fin n) : ((s.handle network envelope).2.slaves j).Addressed := by
  obtain ⟨src, dst, message⟩ := envelope
  cases message with
  | notSet => exact h j
  | tabletMessage message =>
      exact addressed_update h dst ((h dst).handleTabletMessage src message) j
  | slaveMessage message =>
      cases message with
      | notSet => exact h j
      | heartbeat =>
          have htracked : ({ s.slaves dst with
              heartbeatTracker := (s.slaves dst).heartbeatTracker.handleHeartbeat
                (configEndpoint src) } : Slave n).Addressed := h dst
          exact addressed_update h dst htracked j
      | paxosMessage message => exact addressed_finish h dst (h dst) _ _ _ j
      | syncRequest request => exact addressed_finish h dst (h dst) _ _ _ j
      | syncResponse response => exact addressed_finish h dst (h dst) _ _ _ j

theorem addressed_handleQueued (h : ∀ i, (s.slaves i).Addressed) {i src : Fin n}
    {tabletId : TabletId} {node : Group.Node n} {message : TabletMessage}
    {queue : List (Fin n × TabletMessage)}
    (htp : (s.slaves i).tpMap tabletId = some ⟨node, (src, message) :: queue⟩) (j : Fin n) :
    ((s.handleQueued i tabletId ⟨node, (src, message) :: queue⟩ src message queue).2.slaves
      j).Addressed := by
  have hslave : ((s.slaves i).setQueue tabletId node queue).Addressed := by
    apply (h i).setQueue
    intro x hx
    exact h i tabletId _ htp x (List.mem_cons_of_mem _ hx)
  simp only [State.handleQueued]
  split
  · exact addressed_finish h i hslave _ _ _ j
  · exact addressed_finish h i hslave _ _ _ j
  · exact addressed_finish h i hslave _ _ _ j
  · exact addressed_update h i hslave j

theorem addressed_of_next (h : ∀ i, (s.slaves i).Addressed) {a : Action n}
    {events : List (Event n)} (hnext : next s a = some (events, s')) (j : Fin n) :
    (s'.slaves j).Addressed := by
  cases a with
  | propose i log draw entry =>
      simp only [next] at hnext
      split at hnext
      · obtain ⟨node, -, hproposal⟩ := Option.bind_eq_some_iff.mp hnext
        have hfinish := fun outcome => addressed_finish h i (h i) log s.network outcome j
        simp only [nextProposal] at hproposal
        split at hproposal
        · split at hproposal
          · have hs' : _ = s' := congrArg Prod.snd (Option.some.inj hproposal)
            rw [← hs']
            exact hfinish _
          · cases hproposal
        · have hs' : _ = s' := congrArg Prod.snd (Option.some.inj hproposal)
          rw [← hs']
          exact hfinish _
      · cases hnext
  | sync i log =>
      simp only [next] at hnext
      split at hnext
      · obtain ⟨node, -, hresult⟩ := Option.map_eq_some_iff.mp hnext
        cases hresult
        exact h j
      · cases hnext
  | heartbeat i =>
      simp only [next] at hnext
      split at hnext
      · cases hnext
        have htracked : ({ s.slaves i with
            heartbeatTracker := (s.slaves i).heartbeatTracker.incrementCounts } :
              Slave n).Addressed := h i
        exact addressed_update h i htracked j
      · cases hnext
  | keySpaceChange i ranges =>
      simp only [next] at hnext
      split at hnext
      · cases hnext
        exact addressed_update h i ((h i).handleKeySpaceChange ranges) j
      · cases hnext
  | deliver position =>
      simp only [next] at hnext
      split at hnext
      · cases hnext
      · split at hnext
        · have hs' : _ = s' := congrArg Prod.snd (Option.some.inj hnext)
          rw [← hs']
          exact addressed_handle h _ _ j
        · cases hnext
          exact h j
  | handleQueued i tabletId =>
      simp only [next] at hnext
      split at hnext
      · split at hnext
        · rename_i node src message queue htp
          have hs' : _ = s' := congrArg Prod.snd (Option.some.inj hnext)
          rw [← hs']
          exact addressed_handleQueued h htp j
        · cases hnext
      · cases hnext
  | stop i =>
      simp only [next] at hnext
      split at hnext
      · cases hnext
        have hstopped : ({ s.slaves i with stopped := true } : Slave n).Addressed := h i
        exact addressed_update h i hstopped j
      · cases hnext
  | drop position =>
      simp only [next] at hnext
      split at hnext
      · cases hnext
      · cases hnext
        exact h j

/-! ## Runs -/

theorem Separate.step (h : Separate trace s) (haddressed : ∀ i, (s.slaves i).Addressed)
    {a : Action n} {events : List (Event n)} (hnext : next s a = some (events, s')) :
    Separate (trace ++ events) s' := by
  cases a with
  | propose i log draw entry =>
      simp only [next] at hnext
      split at hnext
      · rename_i hok
        obtain ⟨node, hnode, hproposal⟩ := Option.bind_eq_some_iff.mp hnext
        exact h.proposed hnode hok.1 hproposal
      · cases hnext
  | sync i log =>
      simp only [next] at hnext
      split at hnext
      · obtain ⟨node, hnode, hresult⟩ := Option.map_eq_some_iff.mp hnext
        cases hresult
        exact (List.append_nil trace).symm ▸ h.synced hnode
      · cases hnext
  | heartbeat i =>
      simp only [next] at hnext
      split at hnext
      · cases hnext
        exact (List.append_nil trace).symm ▸ h.heartbeat i
      · cases hnext
  | keySpaceChange i ranges =>
      simp only [next] at hnext
      split at hnext
      · cases hnext
        refine (List.append_nil trace).symm ▸ h.update rfl
          (nodeAt_handleKeySpaceChange ranges) ?_
        intro log
        rw [queuedAt_handleKeySpaceChange]
      · cases hnext
  | deliver position =>
      simp only [next] at hnext
      cases henvelope : s.network[position]? with
      | none => simp [henvelope] at hnext
      | some envelope =>
          simp only [henvelope] at hnext
          split at hnext
          · exact h.deliver henvelope (Option.some.inj hnext)
          · cases hnext
            exact (List.append_nil trace).symm ▸ h.lose henvelope
  | handleQueued i tabletId =>
      simp only [next] at hnext
      split at hnext
      · split at hnext
        · rename_i node src message queue htp
          exact h.handleQueued haddressed htp (Option.some.inj hnext)
        · cases hnext
      · cases hnext
  | stop i =>
      simp only [next] at hnext
      split at hnext
      · cases hnext
        exact (List.append_nil trace).symm ▸
          h.update rfl (fun log => by cases log <;> rfl) (fun _ => rfl)
      · cases hnext
  | drop position =>
      simp only [next] at hnext
      cases henvelope : s.network[position]? with
      | none => simp [henvelope] at hnext
      | some envelope =>
          simp only [henvelope, Option.some.injEq] at hnext
          cases hnext
          exact (List.append_nil trace).symm ▸ h.lose henvelope

end Step

theorem addressed_of_run {trace : List (Event n)} {s : State n}
    (h : (machine n).system.Run trace s) : ∀ i, (s.slaves i).Addressed := by
  apply h.invariant (I := fun _ s => ∀ i, (s.slaves i).Addressed)
  · rintro s rfl i tabletId tp htp
    cases htp
  · rintro trace s events s' - ih ⟨a, -, hnext⟩
    exact addressed_of_next ih hnext

theorem separate_initial : Separate [] (State.initial n) := by
  refine ⟨fun _ => rfl, ?_⟩
  intro log
  refine ⟨Group.State.initial n, .start rfl, ?_, ?_⟩
  · intro i
    cases log <;> rfl
  · cases log <;> simp [packetsOf, flying, State.initial, Group.State.initial, queuedAt, Slave.new]

theorem separate_of_run {trace : List (Event n)} {s : State n}
    (h : (machine n).system.Run trace s) : Separate trace s := by
  apply h.invariant
  · rintro s rfl
    exact separate_initial
  · rintro trace s events s' hrun ih ⟨a, -, hnext⟩
    exact ih.step (addressed_of_run hrun) hnext

/-- The logs of the slaves share processes, queues and connections, but each of them is a
group of its own: what it shows is a run of a group whose nodes are the nodes of the log
and whose network holds what is on its way for it. No handler of their messages throws. -/
theorem logs_separate {trace : List (Event n)} {s : State n}
    (h : (machine n).system.Run trace s) :
    (∀ i, (s.slaves i).exception = none) ∧
    ∀ log, ∃ g, (Group.machine n).system.Run (trace.filterMap (eventOf log)) g ∧
      (∀ i, g.nodes i = nodeAt log (s.slaves i)) ∧
      (g.network : Multiset (Group.Packet n)) = packetsOf log s := by
  obtain ⟨hexception, hlogs⟩ := separate_of_run h
  refine ⟨hexception, ?_⟩
  intro log
  obtain ⟨g, hrun, hholds⟩ := hlogs log
  exact ⟨g, hrun, hholds.nodes, hholds.network⟩

/-- A round for the log of the slaves and one for a tablet, which slave 2 does not have when
it stops. -/
theorem logs_separate_sample : ∃ (trace : List (Event 3)) (s : State 3),
    (s.slaves 2).stopped = true ∧ (s.slaves 2).tpMap ⟨"db", "t", none, none⟩ = none ∧
    trace.filterMap (eventOf .slave) =
      [.proposed 0 0 .reconfigFinished, .promised 1 0 0 5 0 .notSet] ∧
    ∃ g, (Group.machine 3).system.Run (trace.filterMap
        (eventOf (.tablet ⟨"db", "t", none, none⟩))) g ∧
      (∀ i, g.nodes i = nodeAt (.tablet ⟨"db", "t", none, none⟩) (s.slaves i)) ∧
      (g.network : Multiset (Group.Packet 3)) =
        packetsOf (.tablet ⟨"db", "t", none, none⟩) s := by
  obtain ⟨trace, s, hrun, hstopped, hnone, hslave⟩ := (machine 3).exists_run
    [.keySpaceChange 0 [⟨"db", "t", none, none⟩], .keySpaceChange 1 [⟨"db", "t", none, none⟩],
      .propose 0 .slave 5 .reconfigFinished,
      .propose 1 (.tablet ⟨"db", "t", none, none⟩) 7 .reconfigFinished, .deliver 3,
      .stop 2, .deliver 1, .handleQueued 0 ⟨"db", "t", none, none⟩, .deliver 3, .heartbeat 1]
    (p := fun r => (r.2.slaves 2).stopped = true ∧
      (r.2.slaves 2).tpMap ⟨"db", "t", none, none⟩ = none ∧
      r.1.filterMap (eventOf .slave) =
        [.proposed 0 0 .reconfigFinished, .promised 1 0 0 5 0 .notSet]) (by decide +kernel)
  exact ⟨trace, s, hstopped, hnone, hslave, (logs_separate hrun).2 _⟩

end UniversalDB.SlaveGroup
