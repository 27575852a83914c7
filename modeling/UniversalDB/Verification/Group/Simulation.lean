import UniversalDB.Verification.Group.Instance

/-! # A group simulates the protocol at every index -/

namespace UniversalDB.Group

open SinglePaxosHandler MultiPaxosHandler

variable {n : ℕ}

/-! ## Steps of a group -/

theorem mem_sync {node : Node n} {self : Fin n} {packet : Packet n} :
    packet ∈ node.sync self ↔ ∃ request, LogSyncer.requestFor node.paxosLog = some request ∧
      ∃ dst, ⟨self, dst, .syncRequest request⟩ = packet := by
  simp [Node.sync]

/-- What a step of a group can do. -/
inductive Move (s : State n) : Action n → List (Event n) → State n → Prop where
  | lose {a position packet} (hpacket : s.network[position]? = some packet) :
      Move s a [] { s with network := s.network.eraseIdx position }
  | sync (self : Fin n) :
      Move s (.sync self) [] { s with network := s.network ++ (s.nodes self).sync self }
  | stop {a} (self : Fin n) (exception : UniversalException) {network}
      (hnet : network = s.network ∨ ∃ position packet,
        s.network[position]? = some packet ∧ network = s.network.eraseIdx position) :
      Move s a [] ⟨Function.update s.nodes self
        { s.nodes self with exception := some exception }, network⟩
  | propose {self draw entry index h' effects}
      (hindex : (s.nodes self).paxosLog.nextAvailableIndex = .ok index)
      (hlt : index < 2 ^ 32)
      (hcall : ((s.nodes self).multiPaxosHandler.getInstance index).propose draw entry =
        (h', effects)) :
      Move s (.propose self draw entry) [.proposed self index entry]
        ⟨Function.update s.nodes self
          { s.nodes self with
            multiPaxosHandler := (s.nodes self).multiPaxosHandler.setInstance index h' },
          s.network ++ effects.flatMap (outgoing self)⟩
  | paxos {position src dst message h' effects paxosLog calls}
      (hpacket : s.network[position]? = some ⟨src, dst, .paxosMessage message⟩)
      (hcall : dispatch ((s.nodes dst).multiPaxosHandler.getInstance
        message.paxosIndex.toNat) src message.content = .ok (h', effects))
      (hset : (s.nodes dst).paxosLog.setEntries (effects.filterMap written) =
        .ok (paxosLog, calls)) :
      Move s (.deliver position) (effects.filterMap (shown dst message.content))
        ⟨Function.update s.nodes dst
          { s.nodes dst with
            paxosLog := paxosLog
            multiPaxosHandler :=
              (s.nodes dst).multiPaxosHandler.setInstance message.paxosIndex.toNat h' },
          s.network.eraseIdx position ++ effects.flatMap (outgoing dst)⟩
  | syncRequest {position src dst request response}
      (hpacket : s.network[position]? = some ⟨src, dst, .syncRequest request⟩)
      (hcall : LogSyncer.buildSyncResponse (s.nodes dst).paxosLog request = .ok response) :
      Move s (.deliver position) []
        { s with
          network := s.network.eraseIdx position ++ [⟨dst, src, .syncResponse response⟩] }
  | syncResponse {position src dst response paxosLog calls}
      (hpacket : s.network[position]? = some ⟨src, dst, .syncResponse response⟩)
      (hcall : LogSyncer.handleSyncResponse (s.nodes dst).paxosLog response =
        .ok (paxosLog, calls)) :
      Move s (.deliver position) []
        ⟨Function.update s.nodes dst { s.nodes dst with paxosLog := paxosLog },
          s.network.eraseIdx position⟩

theorem move_of_propose {s s' : State n} {self : Fin n} {draw : ℕ} {entry : PaxosLogEntry}
    {events : List (Event n)} (h : next s (.propose self draw entry) = some (events, s')) :
    Move s (.propose self draw entry) events s' := by
  simp only [next] at h
  split at h
  · cases hindex : (s.nodes self).paxosLog.nextAvailableIndex with
    | error exception =>
        simp only [hindex, State.finish, Option.some.injEq, Prod.mk.injEq] at h
        obtain ⟨rfl, rfl⟩ := h
        exact .stop self exception (.inl rfl)
    | ok index =>
        simp only [hindex] at h
        split at h
        · rename_i hlt
          simp only [State.finish, Node.propose, MultiPaxosHandler.propose, hindex,
            Option.some.injEq] at h
          cases h
          exact .propose hindex hlt rfl
        · cases h
  · cases h

theorem move_of_handle {s s' : State n} {position : ℕ} {packet : Packet n}
    {events : List (Event n)} (hpacket : s.network[position]? = some packet)
    (h : s.finish packet.dst (s.network.eraseIdx position)
      ((s.nodes packet.dst).handle packet) = (events, s')) :
    Move s (.deliver position) events s' := by
  obtain ⟨src, dst, payload⟩ := packet
  cases payload with
  | paxosMessage message =>
      simp only [Node.handle, handleIncomingMessage] at h
      cases hcall : dispatch ((s.nodes dst).multiPaxosHandler.getInstance
          message.paxosIndex.toNat) src message.content with
      | error exception =>
          rw [hcall] at h
          cases h
          exact .stop dst exception (.inr ⟨position, _, hpacket, rfl⟩)
      | ok result =>
          obtain ⟨h', effects⟩ := result
          rw [hcall] at h
          cases hset : (s.nodes dst).paxosLog.setEntries (effects.filterMap written) with
          | error exception =>
              simp only [bind, Except.bind, pure, Except.pure, hset] at h
              cases h
              exact .stop dst exception (.inr ⟨position, _, hpacket, rfl⟩)
          | ok result =>
              obtain ⟨paxosLog, calls⟩ := result
              simp only [bind, Except.bind, pure, Except.pure, hset] at h
              cases h
              exact .paxos hpacket hcall hset
  | syncRequest request =>
      simp only [Node.handle] at h
      cases hcall : LogSyncer.buildSyncResponse (s.nodes dst).paxosLog request with
      | error exception =>
          rw [hcall] at h
          cases h
          exact .stop dst exception (.inr ⟨position, _, hpacket, rfl⟩)
      | ok response =>
          rw [hcall] at h
          cases h
          have hmove := Move.syncRequest hpacket hcall
          simpa [State.finish] using hmove
  | syncResponse response =>
      simp only [Node.handle] at h
      cases hcall : LogSyncer.handleSyncResponse (s.nodes dst).paxosLog response with
      | error exception =>
          rw [hcall] at h
          cases h
          exact .stop dst exception (.inr ⟨position, _, hpacket, rfl⟩)
      | ok result =>
          obtain ⟨paxosLog, calls⟩ := result
          rw [hcall] at h
          cases h
          have hmove := Move.syncResponse hpacket hcall
          simpa using hmove

theorem move_of_next {s s' : State n} {a : Action n} {events : List (Event n)}
    (h : next s a = some (events, s')) : Move s a events s' := by
  cases a with
  | propose self draw entry => exact move_of_propose h
  | sync self =>
      simp only [next] at h
      split at h
      · cases h
        exact .sync self
      · cases h
  | deliver position =>
      simp only [next] at h
      cases hpacket : s.network[position]? with
      | none => simp [hpacket] at h
      | some packet =>
          simp only [hpacket] at h
          split at h
          · exact move_of_handle hpacket (Option.some.inj h)
          · cases h
            exact .lose hpacket
  | drop position =>
      simp only [next] at h
      cases hpacket : s.network[position]? with
      | none => simp [hpacket] at h
      | some packet =>
          simp only [hpacket, Option.some.injEq, Prod.mk.injEq] at h
          obtain ⟨rfl, rfl⟩ := h
          exact .lose hpacket

/-! ## What a step does at one index -/

def State.instanceAt (s : State n) (i : Fin n) (index : ℕ) : SinglePaxosHandler (Fin n) :=
  (s.nodes i).multiPaxosHandler.getInstance index

theorem getInstance_setInstance (m : MultiPaxosHandler (Fin n)) (index k : ℕ)
    (h : SinglePaxosHandler (Fin n)) :
    (m.setInstance index h).getInstance k = if k = index then h else m.getInstance k := by
  simp only [MultiPaxosHandler.getInstance, setInstance, KeyMap.assign_apply]
  split <;> rfl

theorem instanceAt_update (s : State n) (self : Fin n) {node : Node n} (index k : ℕ)
    {h' : SinglePaxosHandler (Fin n)} (network : List (Packet n))
    (hnode : node.multiPaxosHandler =
      (s.nodes self).multiPaxosHandler.setInstance index h') (i : Fin n) :
    (⟨Function.update s.nodes self node, network⟩ : State n).instanceAt i k =
      if i = self ∧ k = index then h' else s.instanceAt i k := by
  by_cases hi : i = self
  · subst i
    simp [State.instanceAt, hnode, getInstance_setInstance]
  · simp [State.instanceAt, hi]

theorem instanceAt_update_same {s : State n} {self : Fin n} {node : Node n}
    {network : List (Packet n)}
    (hnode : node.multiPaxosHandler = (s.nodes self).multiPaxosHandler) (i : Fin n)
    (k : ℕ) : (⟨Function.update s.nodes self node, network⟩ : State n).instanceAt i k =
      s.instanceAt i k := by
  by_cases hi : i = self
  · subst i
    simp [State.instanceAt, hnode]
  · simp [State.instanceAt, hi]

section Index

variable {index : ℕ}

theorem networkView_erase_cases {s : State n} {position : ℕ} {packet : Packet n}
    (h : s.network[position]? = some packet) :
    networkView index (s.network.eraseIdx position) = networkView index s.network ∨
      ∃ packet', networkView index s.network =
        packet' ::ₘ networkView index (s.network.eraseIdx position) := by
  have hview := networkView_eraseIdx index h
  cases hpacket : packetView index packet with
  | none =>
      rw [hpacket] at hview
      exact .inl hview.symm
  | some packet' =>
      rw [hpacket] at hview
      exact .inr ⟨packet', hview⟩

theorem eventView_shown_of_ne {h : SinglePaxosHandler (Fin n)} {k : ℕ}
    {effects : List (Effect (Fin n))} (habout : ∀ effect ∈ effects, About h effect)
    (hcfg : Configured n k h) (hk : k < 2 ^ 32) (hne : index ≠ k) (self : Fin n)
    (content : PaxosMessage.Content) :
    (effects.filterMap (shown self content)).filterMap (eventView index) = [] := by
  rw [List.filterMap_eq_nil_iff]
  intro event hevent
  obtain ⟨effect, heffect, hshown⟩ := List.mem_filterMap.mp hevent
  have hindex := (habout effect heffect).shown_index hcfg hk hshown
  exact eventView_of_ne (by omega)

theorem networkView_outgoing_of_ne {h : SinglePaxosHandler (Fin n)} {k : ℕ}
    {effects : List (Effect (Fin n))} (habout : ∀ effect ∈ effects, About h effect)
    (hcfg : Configured n k h) (hk : k < 2 ^ 32) (hne : index ≠ k) (self : Fin n) :
    networkView index (effects.flatMap (outgoing self)) = 0 := by
  apply networkView_of_none
  intro packet hpacket
  obtain ⟨effect, heffect, hout⟩ := List.mem_flatMap.mp hpacket
  exact (habout effect heffect).packetView_of_ne hcfg hk hne self packet hout

/-- A step leaves the instances for an index alone and at most loses a message about it, or
it is a call of one of them. -/
inductive InstanceMove (index : ℕ) (s : State n) :
    Action n → List (Event n) → State n → Prop where
  | frame {a events s'} (hinstance : ∀ i, s'.instanceAt i index = s.instanceAt i index)
      (hnet : networkView index s'.network = networkView index s.network ∨
        ∃ packet, networkView index s.network = packet ::ₘ networkView index s'.network)
      (hevents : events.filterMap (eventView index) = []) : InstanceMove index s a events s'
  | propose {self draw entry s'} (hindex : index < 2 ^ 32)
      (hinstance : ∀ i, s'.instanceAt i index =
        if i = self then ((s.instanceAt self index).propose draw entry).1
        else s.instanceAt i index)
      (hnet : networkView index s'.network = networkView index s.network +
        networkView index (((s.instanceAt self index).propose draw entry).2.flatMap
          (outgoing self))) :
      InstanceMove index s (.propose self draw entry) [.proposed self index entry] s'
  | handle {position src dst message body rest h' effects s'}
      (hpacket : s.network[position]? = some ⟨src, dst, .paxosMessage message⟩)
      (hindex : message.paxosIndex.toNat = index)
      (hbody : contentView message.content = some body)
      (hview : networkView index s.network = ⟨src, dst, body⟩ ::ₘ rest)
      (hcall : dispatch (s.instanceAt dst index) src message.content = .ok (h', effects))
      (hinstance : ∀ i, s'.instanceAt i index = if i = dst then h' else s.instanceAt i index)
      (hnet : networkView index s'.network =
        rest + networkView index (effects.flatMap (outgoing dst))) :
      InstanceMove index s (.deliver position) (effects.filterMap (shown dst message.content)) s'

variable {s s' : State n}

theorem instanceMove_of_propose {k : ℕ} {self : Fin n} {draw : ℕ} {entry : PaxosLogEntry}
    {h' : SinglePaxosHandler (Fin n)} {effects : List (Effect (Fin n))}
    (hcfg : Configured n k (s.instanceAt self k)) (hk : k < 2 ^ 32)
    (hcall : (s.instanceAt self k).propose draw entry = (h', effects))
    (hinstance : ∀ i, s'.instanceAt i index =
      if i = self ∧ index = k then h' else s.instanceAt i index)
    (hnet : s'.network = s.network ++ effects.flatMap (outgoing self)) :
    InstanceMove index s (.propose self draw entry) [.proposed self k entry] s' := by
  by_cases hindex : index = k
  · subst k
    refine .propose hk ?_ ?_
    · intro i
      rw [hinstance, hcall]
      simp
    · rw [hnet, hcall, networkView_append]
  · have hframe := propose_frame (s.instanceAt self k) draw entry
    rw [hcall] at hframe
    refine .frame ?_ (.inl ?_) ?_
    · intro i
      simp [hinstance, hindex]
    · rw [hnet, networkView_append, networkView_outgoing_of_ne hframe.effects hcfg hk hindex,
        Multiset.add_zero]
    · have hne : (Event.proposed self k entry).index ≠ index := fun heq => hindex heq.symm
      simp [eventView_of_ne hne]

theorem instanceMove_of_paxos {position : ℕ} {src dst : Fin n} {message : PaxosMessage}
    {h' : SinglePaxosHandler (Fin n)} {effects : List (Effect (Fin n))}
    (hcfg : ∀ k, Configured n k (s.instanceAt dst k))
    (hpacket : s.network[position]? = some ⟨src, dst, .paxosMessage message⟩)
    (hcall : dispatch (s.instanceAt dst message.paxosIndex.toNat) src message.content =
      .ok (h', effects))
    (hinstance : ∀ i, s'.instanceAt i index =
      if i = dst ∧ index = message.paxosIndex.toNat then h' else s.instanceAt i index)
    (hnet : s'.network = s.network.eraseIdx position ++ effects.flatMap (outgoing dst)) :
    InstanceMove index s (.deliver position) (effects.filterMap (shown dst message.content))
      s' := by
  by_cases hindex : index = message.paxosIndex.toNat
  · subst index
    have hview := networkView_eraseIdx message.paxosIndex.toNat hpacket
    cases hbody : contentView message.content with
    | none =>
        have hcontent : message.content = .notSet := by
          cases hc : message.content <;> simp_all [contentView]
        rw [hcontent] at hcall ⊢
        cases hcall
        refine .frame ?_ (.inl ?_) rfl
        · intro i
          rw [hinstance]
          split
          · rename_i hi
            rw [hi.1]
          · rfl
        · rw [hnet, networkView_append, hview]
          simp [packetView, hcontent, contentView]
    | some body =>
        simp only [packetView, if_true, hbody, Option.map_some, Option.elim_some] at hview
        refine .handle hpacket rfl hbody hview hcall ?_ ?_
        · simpa using hinstance
        · rw [hnet, networkView_append]
  -- a message about another index
  · have hframe := dispatch_frame hcall
    refine .frame ?_ ?_ ?_
    · intro i
      simp [hinstance, hindex]
    · rw [hnet, networkView_append, networkView_outgoing_of_ne hframe.effects (hcfg _)
        message.paxosIndex.toNat_lt hindex, Multiset.add_zero]
      exact networkView_erase_cases hpacket
    · exact eventView_shown_of_ne hframe.effects (hcfg _) message.paxosIndex.toNat_lt hindex
        dst message.content

theorem instanceMove_of_move (hcfg : ∀ i k, Configured n k (s.instanceAt i k)) {a : Action n}
    {events : List (Event n)} (hmove : Move s a events s') (index : ℕ) :
    InstanceMove index s a events s' := by
  cases hmove with
  | lose hpacket =>
      refine .frame ?_ (networkView_erase_cases hpacket) rfl
      intro i
      rfl
  | sync self =>
      have hnone : networkView index ((s.nodes self).sync self) = 0 := by
        apply networkView_of_none
        intro packet hpacket
        obtain ⟨request, -, dst, rfl⟩ := mem_sync.mp hpacket
        rfl
      refine .frame ?_ (.inl ?_) rfl
      · intro i
        rfl
      · rw [networkView_append, hnone, Multiset.add_zero]
  | stop self exception hnet =>
      refine .frame ?_ ?_ rfl
      · intro i
        apply instanceAt_update_same
        rfl
      · rcases hnet with rfl | ⟨position, packet, hpacket, rfl⟩
        · exact .inl rfl
        · exact networkView_erase_cases hpacket
  | propose hnext hlt hcall =>
      refine instanceMove_of_propose (hcfg _ _) hlt hcall ?_ rfl
      exact instanceAt_update s _ _ index _ rfl
  | paxos hpacket hcall hset =>
      refine instanceMove_of_paxos (hcfg _) hpacket hcall ?_ rfl
      exact instanceAt_update s _ _ index _ rfl
  | syncRequest hpacket hcall =>
      refine .frame ?_ ?_ rfl
      · intro i
        rfl
      · have hnone : ∀ src dst : Fin n, ∀ response,
            networkView index [⟨src, dst, .syncResponse response⟩] = 0 :=
          fun _ _ _ => rfl
        simp only [networkView_append, hnone, Multiset.add_zero]
        exact networkView_erase_cases hpacket
  | syncResponse hpacket hcall =>
      refine .frame ?_ (networkView_erase_cases hpacket) rfl
      intro i
      apply instanceAt_update_same
      rfl

end Index

/-! ## The simulation -/

/-- The promises with which an action completes a majority, if it delivers such a
promise. -/
def completed (s : State n) : Action n → Option (List (ℕ × PaxosLogEntry))
  | .deliver position =>
      match s.network[position]? with
      | some ⟨_, dst, .paxosMessage ⟨index, .promise rnd vrnd vval⟩⟩ =>
          let h := s.instanceAt dst index.toNat
          match h.proposerState.prepareState rnd with
          | some promises =>
              if promises.length + 1 = h.majorityThreshold then
                some (promises ++ [(vrnd, vval)])
              else none
          | none => none
      | _ => none
  | _ => none

/-- Runs in which every majority of promises meets `ok`. -/
def restricted (n : ℕ) (ok : List (ℕ × PaxosLogEntry) → Prop) :
    TransitionSystem (State n) (Event n) :=
  (machine n).guarded fun s a => ∀ promises ∈ completed s a, ok promises

structure Refines (index : ℕ) (s : State n) (t : Synod.State (Fin n) PaxosLogEntry) :
    Prop where
  represents : ∀ i, Represents (s.instanceAt i index) (localState t i)
  network : t.network = networkView index s.network

section Step

variable {ok : List (ℕ × PaxosLogEntry) → Prop} {index : ℕ} {s s' : State n}
  {t : Synod.State (Fin n) PaxosLogEntry}

/-- The alternatives a step of the group has at an index. -/
def Simulated (ok : List (ℕ × PaxosLogEntry) → Prop) (index : ℕ)
    (t : Synod.State (Fin n) PaxosLogEntry) (events : List (Event n)) (s' : State n) : Prop :=
  (events.filterMap (eventView index) = [] ∧ Refines index s' t) ∨
    ∃ t', Synod.Step (protocol n ok) t (events.filterMap (eventView index)) t' ∧
      Refines index s' t'

/-- A step that changes no instance for the index and at most loses one packet about
it. -/
theorem Refines.frame (h : Refines index s t)
    (hinstance : ∀ i, s'.instanceAt i index = s.instanceAt i index)
    (hnet : networkView index s'.network = networkView index s.network ∨
      ∃ packet, networkView index s.network = packet ::ₘ networkView index s'.network)
    {events : List (Event n)} (hevents : events.filterMap (eventView index) = []) :
    Simulated ok index t events s' := by
  rcases hnet with hsame | ⟨packet, hlost⟩
  · refine .inl ⟨hevents, ?_, ?_⟩
    · intro i
      rw [hinstance]
      exact h.represents i
    · rw [hsame]
      exact h.network
  · refine .inr ⟨{ t with network := networkView index s'.network }, ?_, ?_, rfl⟩
    · rw [hevents]
      exact .lose (h.network.trans hlost)
    · intro i
      rw [hinstance]
      exact h.represents i

/-- A handler call of the instance for the index. -/
theorem Refines.of_matches (h : Refines index s t) {self : Fin n}
    {rest : Multiset (Synod.Packet (Fin n) PaxosLogEntry)} {h' : SinglePaxosHandler (Fin n)}
    {events : List (Event n)} {packets : List (Packet n)}
    {t' : Synod.State (Fin n) PaxosLogEntry}
    (hmatches : Matches ok index t self rest h' events packets t')
    (hself : s'.instanceAt self index = h')
    (hothers : ∀ i, i ≠ self → s'.instanceAt i index = s.instanceAt i index)
    (hnet : networkView index s'.network = rest + networkView index packets) :
    Simulated ok index t events s' := by
  refine .inr ⟨t', hmatches.step, ?_, ?_⟩
  · intro i
    by_cases hi : i = self
    · subst i
      rw [hself]
      exact hmatches.represents
    · rw [hothers i hi, hmatches.others i hi]
      exact h.represents i
  · rw [hnet]
    exact hmatches.network

theorem Refines.step (h : Refines index s t)
    (hcfg : ∀ i k, Configured n k (s.instanceAt i k)) {a : Action n} {events : List (Event n)}
    (hmove : InstanceMove index s a events s')
    (hok : ∀ promises, completed s a = some promises → ok promises) :
    Simulated ok index t events s' := by
  cases hmove with
  | frame hinstance hnet hevents => exact h.frame hinstance hnet hevents
  | @propose self draw entry s' hindex hinstance hnet =>
      obtain ⟨t', hmatches⟩ :=
        propose_matches ok (h.represents self) (hcfg self index) hindex draw entry
      apply h.of_matches hmatches
      · simp [hinstance]
      · intro i hi
        simp [hinstance, hi]
      · rw [hnet, h.network]
  | @handle position src dst message body rest h' effects s' hpacket hindex hbody hview hcall
      hinstance hnet =>
      have hlt : index < 2 ^ 32 := hindex ▸ message.paxosIndex.toNat_lt
      obtain ⟨t', hmatches⟩ := dispatch_matches ok (h.represents dst) (hcfg dst _) hlt hbody
        (h.network.trans hview) (by
          intro rnd vrnd vval promises hcontent hstate hfull
          apply hok
          simp only [completed, hpacket]
          obtain ⟨_, content⟩ := message
          subst hcontent hindex
          simp [hstate, hfull]) hcall
      apply h.of_matches hmatches
      · simp [hinstance]
      · intro i hi
        simp [hinstance, hi]
      · exact hnet

end Step

/-! ## Runs -/

theorem configured_move {s s' : State n} {a : Action n} {events : List (Event n)}
    (h : ∀ i k, Configured n k (s.instanceAt i k)) (hmove : Move s a events s') (i : Fin n)
    (k : ℕ) : Configured n k (s'.instanceAt i k) := by
  cases hmove with
  | lose hpacket => exact h i k
  | sync self => exact h i k
  | stop self exception hnet =>
      rw [instanceAt_update_same]
      · exact h i k
      · rfl
  | @propose self draw entry index h' effects hnext hlt hcall =>
      rw [instanceAt_update s self index k _ rfl]
      split
      · rename_i hself
        have hframe := propose_frame (s.instanceAt self index) draw entry
        rw [State.instanceAt, hcall] at hframe
        rw [hself.2]
        exact hframe.configured (h self index)
      · exact h i k
  | @paxos position src dst message h' effects paxosLog calls hpacket hcall hset =>
      rw [instanceAt_update s dst _ k _ rfl]
      split
      · rename_i hself
        rw [hself.2]
        exact (dispatch_frame hcall).configured (h dst _)
      · exact h i k
  | syncRequest hpacket hcall => exact h i k
  | syncResponse hpacket hcall =>
      rw [instanceAt_update_same]
      · exact h i k
      · rfl

theorem run_of_restricted {ok : List (ℕ × PaxosLogEntry) → Prop} {trace : List (Event n)}
    {s : State n} (h : (restricted n ok).Run trace s) : (machine n).system.Run trace s :=
  Machine.run_of_guarded h

theorem configured_of_run {trace : List (Event n)} {s : State n}
    (h : (machine n).system.Run trace s) : ∀ i k, Configured n k (s.instanceAt i k) := by
  apply h.invariant (I := fun _ s => ∀ i k, Configured n k (s.instanceAt i k))
  · rintro s rfl i k
    exact instanceProvider_configured n k
  · rintro trace s events s' hrun ih ⟨a, -, hnext⟩ i k
    exact configured_move ih (move_of_next hnext) i k

/-- At every index a run of the group is a run of the protocol. -/
theorem simulation {ok : List (ℕ × PaxosLogEntry) → Prop} {trace : List (Event n)}
    {s : State n} (h : (restricted n ok).Run trace s) (index : ℕ) :
    ∃ t, (protocol n ok).system.Run (trace.filterMap (eventView index)) t ∧
      Refines index s t := by
  apply h.simulate (Refines index) (eventView index)
  · rintro s rfl
    refine ⟨Synod.State.initial .notSet, rfl, ?_, rfl⟩
    exact instanceProvider_represents n index
  · rintro trace s t events s' hrun hR ⟨a, hok, hnext⟩
    have hcfg := configured_of_run (run_of_restricted hrun)
    exact hR.step hcfg (instanceMove_of_move hcfg (move_of_next hnext) index) hok

/-- Without a restriction all runs are meant. -/
theorem restricted_of_run {trace : List (Event n)} {s : State n}
    (h : (machine n).system.Run trace s) : (restricted n fun _ => True).Run trace s :=
  Machine.guarded_of_run (fun _ _ _ _ => trivial) h

end UniversalDB.Group
