import UniversalDB.Verification.Group.Logs
import UniversalDB.Verification.Group.Promises

/-! # The handler calls of a group end without an exception -/

namespace UniversalDB.Group

open SinglePaxosHandler MultiPaxosHandler

variable {n : ℕ}

/-- The states that a run of the group ends in. -/
def Reachable (s : State n) : Prop := ∃ trace, (machine n).system.Run trace s

/-- Every run has a history of the counted promises. -/
theorem exists_counting_run {trace : List (Event n)} {s : State n}
    (h : (machine n).system.Run trace s) :
    ∃ history, (countingMachine n).system.Run history s := by
  induction h with
  | start hs => exact ⟨[], .start hs⟩
  | @step _ s _ s' _ hs ih =>
      obtain ⟨a, -, hnext⟩ := hs
      obtain ⟨history, hrun⟩ := ih
      have hcounting : (countingMachine n).next s a = some (counted s s' a, s') :=
        Option.map_eq_some_iff.mpr ⟨_, hnext, rfl⟩
      exact ⟨_, hrun.step ⟨a, trivial, hcounting⟩⟩

section Reachable

variable {s s' : State n}

theorem Reachable.step (h : Reachable s) {a : Action n} {events : List (Event n)}
    (hnext : next s a = some (events, s')) : Reachable s' := by
  obtain ⟨trace, hrun⟩ := h
  exact ⟨trace ++ events, hrun.step ⟨a, trivial, hnext⟩⟩

theorem Reachable.configured (h : Reachable s) (i : Fin n) (k : ℕ) :
    Configured n k (s.instanceAt i k) := by
  obtain ⟨trace, hrun⟩ := h
  exact configured_of_run hrun i k

theorem Reachable.wellFormed (h : Reachable s) (i : Fin n) :
    (s.nodes i).paxosLog.WellFormed := by
  obtain ⟨trace, hrun⟩ := h
  exact (logInv_of_run hrun).wellFormed i

theorem Reachable.bounded (h : Reachable s) (i : Fin n) {index : ℕ}
    (hsome : ((s.nodes i).paxosLog.log index).isSome) : index < 2 ^ 32 := by
  obtain ⟨trace, hrun⟩ := h
  obtain ⟨entry, hentry⟩ := Option.isSome_iff_exists.mp hsome
  exact (logInv_of_run hrun).bounded i index entry hentry

theorem Reachable.known (h : Reachable s) {src dst : Fin n} {message : PaxosMessage}
    {rnd vrnd : ℕ} {vval : PaxosLogEntry} (hmem : ⟨src, dst, .paxosMessage message⟩ ∈ s.network)
    (hcontent : message.content = .promise rnd vrnd vval) :
    Known (s.instanceAt dst message.paxosIndex.toNat) rnd := by
  obtain ⟨trace, hrun⟩ := h
  obtain ⟨history, hcounting⟩ := exists_counting_run hrun
  have hview := mem_networkView hmem (by rw [hcontent]; rfl)
  exact (indexInv_of_run hcounting _).promised src dst rnd vrnd vval hview

end Reachable

/-! ## Calls -/

section Calls

variable {s : State n}

theorem Reachable.dispatch_ok (h : Reachable s) {src dst : Fin n} {message : PaxosMessage}
    (hmem : ⟨src, dst, .paxosMessage message⟩ ∈ s.network) :
    ∃ result, dispatch (s.instanceAt dst message.paxosIndex.toNat) src message.content =
      .ok result := by
  cases hcontent : message.content with
  | promise rnd vrnd vval => exact promise_of_known (h.known hmem hcontent) vrnd vval
  | _ => exact ⟨_, rfl⟩

/-- A handler call writes at the index of the message. -/
theorem Reachable.written_index (h : Reachable s) {src dst : Fin n} {message : PaxosMessage}
    {h' : SinglePaxosHandler (Fin n)} {effects : List (Effect (Fin n))}
    (hcall : dispatch (s.instanceAt dst message.paxosIndex.toNat) src message.content =
      .ok (h', effects)) :
    ∀ p ∈ effects.filterMap written, p.1 = message.paxosIndex.toNat := by
  intro p hp
  obtain ⟨effect, heffect, hwritten⟩ := List.mem_filterMap.mp hp
  have habout := (dispatch_frame hcall).effects effect heffect
  cases effect with
  | broadcast endpoints message => cases hwritten
  | send d message => cases hwritten
  | setEntry index entry =>
      cases hwritten
      exact habout.trans (h.configured dst message.paxosIndex.toNat).paxosLogIndex

/-- What a handler call writes fits the index field of a message. -/
theorem Reachable.written_lt (h : Reachable s) {src dst : Fin n} {message : PaxosMessage}
    {h' : SinglePaxosHandler (Fin n)} {effects : List (Effect (Fin n))}
    (hcall : dispatch (s.instanceAt dst message.paxosIndex.toNat) src message.content =
      .ok (h', effects)) :
    ∀ p ∈ effects.filterMap written, p.1 < 2 ^ 32 := by
  intro p hp
  rw [h.written_index hcall p hp]
  exact message.paxosIndex.toNat_lt

theorem Reachable.handle_paxos (h : Reachable s) {src dst : Fin n} {message : PaxosMessage}
    {h' : SinglePaxosHandler (Fin n)} {effects : List (Effect (Fin n))}
    (hcall : dispatch (s.instanceAt dst message.paxosIndex.toNat) src message.content =
      .ok (h', effects)) :
    ∃ paxosLog,
      (∀ index, paxosLog.log index = ((s.nodes dst).paxosLog.log index).or
        (PaxosLog.firstEntry (effects.filterMap written) index)) ∧
      (s.nodes dst).handle ⟨src, dst, .paxosMessage message⟩ =
        .ok ({ s.nodes dst with
            multiPaxosHandler :=
              (s.nodes dst).multiPaxosHandler.setInstance message.paxosIndex.toNat h'
            paxosLog := paxosLog },
          effects.filterMap (shown dst message.content), effects.flatMap (outgoing dst)) := by
  have hindex : ∀ p ∈ effects.filterMap written, p.1 < 2 ^ 64 - 1 := by
    intro p hp
    have hlt := h.written_lt hcall p hp
    omega
  obtain ⟨paxosLog, calls, hset, hspec⟩ := (h.wellFormed dst).setEntries _ hindex
  refine ⟨paxosLog, hspec.log, ?_⟩
  rw [State.instanceAt] at hcall
  simp only [Node.handle, handleIncomingMessage, hcall, hset, bind, Except.bind, pure,
    Except.pure]

theorem Reachable.buildSyncResponse_ok (h : Reachable s) (dst : Fin n) (request : SyncRequest) :
    ∃ response, LogSyncer.buildSyncResponse (s.nodes dst).paxosLog request = .ok response := by
  obtain ⟨m, hm, -⟩ := (h.wellFormed dst).nextAvailableIndex
  simp only [LogSyncer.buildSyncResponse, hm, bind, Except.bind]
  split <;> exact ⟨_, rfl⟩

theorem Reachable.handleSyncResponse_ok (h : Reachable s) (dst : Fin n)
    (response : SyncResponse) :
    ∃ paxosLog calls, LogSyncer.handleSyncResponse (s.nodes dst).paxosLog response =
      .ok (paxosLog, calls) := by
  have hindex : ∀ p ∈ response.missingEntries.map (fun x => (x.index.toNat, x.entry)),
      p.1 < 2 ^ 64 - 1 := by
    intro p hp
    obtain ⟨x, -, rfl⟩ := List.mem_map.mp hp
    have hlt := x.index.toNat_lt
    simp only
    omega
  obtain ⟨paxosLog, calls, hset, -⟩ := (h.wellFormed dst).setEntries _ hindex
  exact ⟨paxosLog, calls, hset⟩

/-- No handler call of a group ends with an exception. -/
theorem Reachable.handle_ok (h : Reachable s) {packet : Packet n} (hmem : packet ∈ s.network) :
    ∃ node events packets, (s.nodes packet.dst).handle packet = .ok (node, events, packets) ∧
      node.exception = (s.nodes packet.dst).exception := by
  obtain ⟨src, dst, payload⟩ := packet
  cases payload with
  | paxosMessage message =>
      obtain ⟨⟨h', effects⟩, hcall⟩ := h.dispatch_ok hmem
      obtain ⟨paxosLog, -, hhandle⟩ := h.handle_paxos hcall
      exact ⟨_, _, _, hhandle, rfl⟩
  | syncRequest request =>
      obtain ⟨response, hresponse⟩ := h.buildSyncResponse_ok dst request
      exact ⟨_, _, _, by simp only [Node.handle, hresponse]; rfl, rfl⟩
  | syncResponse response =>
      obtain ⟨paxosLog, calls, hset⟩ := h.handleSyncResponse_ok dst response
      exact ⟨{ s.nodes dst with paxosLog := paxosLog }, [], [],
        by simp only [Node.handle, hset]; rfl, rfl⟩

theorem Reachable.propose_ok (h : Reachable s) (self : Fin n) {index : ℕ}
    (hgap : (s.nodes self).paxosLog.log.FirstGap index) (draw : ℕ) (entry : PaxosLogEntry) :
    (s.nodes self).propose self index draw entry =
      .ok ({ s.nodes self with
          multiPaxosHandler := (s.nodes self).multiPaxosHandler.setInstance index
            ((s.instanceAt self index).propose draw entry).1 },
        [.proposed self index entry],
        ((s.instanceAt self index).propose draw entry).2.flatMap (outgoing self)) := by
  have hnext := (h.wellFormed self).nextAvailableIndex_eq.mpr hgap
  simp only [Node.propose, MultiPaxosHandler.propose, hnext, State.instanceAt]
  rfl

end Calls

/-! ## No node stops -/

theorem exception_update {s : State n} (hlive : ∀ i, (s.nodes i).exception = none)
    {self : Fin n} {node : Node n} (hnode : node.exception = (s.nodes self).exception)
    (i : Fin n) : (Function.update s.nodes self node i).exception = none := by
  by_cases hi : i = self
  · subst i
    rw [Function.update_self, hnode]
    exact hlive self
  · rw [Function.update_of_ne hi]
    exact hlive i

theorem live_of_next {s s' : State n} (h : Reachable s)
    (hlive : ∀ i, (s.nodes i).exception = none) {a : Action n} {events : List (Event n)}
    (hnext : next s a = some (events, s')) : ∀ i, (s'.nodes i).exception = none := by
  cases a with
  | propose self draw entry =>
      obtain ⟨index, hindex, hgap⟩ := (h.wellFormed self).nextAvailableIndex
      simp only [next, hindex] at hnext
      split at hnext
      · split at hnext
        · simp only [h.propose_ok self hgap, State.finish, Option.some.injEq] at hnext
          cases hnext
          exact exception_update hlive rfl
        · cases hnext
      · cases hnext
  | sync self =>
      simp only [next] at hnext
      split at hnext
      · cases hnext
        exact hlive
      · cases hnext
  | deliver position =>
      simp only [next] at hnext
      cases hpacket : s.network[position]? with
      | none => simp [hpacket] at hnext
      | some packet =>
          obtain ⟨node, shown, packets, hhandle, hexception⟩ :=
            h.handle_ok (List.mem_of_getElem? hpacket)
          simp only [hpacket, hlive packet.dst, hhandle, State.finish, Option.isNone_none,
            if_true, Option.some.injEq] at hnext
          cases hnext
          exact exception_update hlive hexception
  | drop position =>
      simp only [next] at hnext
      split at hnext
      · cases hnext
      · cases hnext
        exact hlive

theorem Reachable.live {s : State n} (h : Reachable s) : ∀ i, (s.nodes i).exception = none := by
  obtain ⟨trace, hrun⟩ := h
  apply hrun.invariant (I := fun _ s => ∀ i, (s.nodes i).exception = none)
  · rintro s rfl i
    rfl
  · rintro trace s events s' hrun hlive ⟨a, -, hnext⟩
    exact live_of_next ⟨trace, hrun⟩ hlive hnext

theorem Reachable.next_deliver {s : State n} (h : Reachable s) {position : ℕ}
    {packet : Packet n} (hpacket : s.network[position]? = some packet) {node : Node n}
    {events : List (Event n)} {packets : List (Packet n)}
    (hhandle : (s.nodes packet.dst).handle packet = .ok (node, events, packets)) :
    next s (.deliver position) = some
      (events, ⟨Function.update s.nodes packet.dst node,
        s.network.eraseIdx position ++ packets⟩) := by
  simp only [next, hpacket]
  rw [if_pos (by rw [h.live]; rfl), hhandle]
  rfl

end UniversalDB.Group
