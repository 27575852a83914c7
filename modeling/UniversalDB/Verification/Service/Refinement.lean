import UniversalDB.Verification.Group.Agreed
import UniversalDB.Verification.Group.Calls
import UniversalDB.Verification.Service.Steps

/-! # A service on a Paxos group is a service over an agreed log -/

namespace UniversalDB.Service

variable {κ σ α δ : Type} {n : ℕ} {S : Service (Fin n) κ σ α δ}

/-! ## Two views of a run -/

def paxosView : Event n δ → Option (Group.Event n)
  | .paxos event => some event
  | .service _ => none

def serviceView : Event n δ → Option δ
  | .paxos _ => none
  | .service event => some event

theorem paxosView_map_paxos (events : List (Group.Event n)) :
    (events.map fun event => (.paxos event : Event n δ)).filterMap paxosView = events := by
  simp [List.filterMap_map, Function.comp_def, paxosView]

theorem paxosView_map_service (events : List δ) :
    (events.map fun event => (.service event : Event n δ)).filterMap paxosView = [] := by
  simp [List.filterMap_map, Function.comp_def, paxosView]

theorem serviceView_map_paxos (events : List (Group.Event n)) :
    (events.map fun event => (.paxos event : Event n δ)).filterMap serviceView = [] := by
  simp [List.filterMap_map, Function.comp_def, serviceView]

theorem serviceView_map_service (events : List δ) :
    (events.map fun event => (.service event : Event n δ)).filterMap serviceView = events := by
  simp [List.filterMap_map, Function.comp_def, serviceView]

/-- What a handler shows. -/
def shownBy (events : List (Group.Event n)) (shown : List δ) : List (Event n δ) :=
  events.map .paxos ++ shown.map .service

theorem paxosView_shownBy (events : List (Group.Event n)) (shown : List δ) :
    (shownBy events shown).filterMap paxosView = events := by
  rw [shownBy, List.filterMap_append, paxosView_map_paxos, paxosView_map_service, List.append_nil]

theorem serviceView_shownBy (events : List (Group.Event n)) (shown : List δ) :
    (shownBy events shown).filterMap serviceView = shown := by
  rw [shownBy, List.filterMap_append, serviceView_map_paxos, serviceView_map_service,
    List.nil_append]

theorem paxosView_proposed (shown : List δ) (event : Group.Event n) :
    List.filterMap paxosView (shown.map .service ++ [Event.paxos event]) = [event] := by
  rw [List.filterMap_append, paxosView_map_service]
  rfl

theorem serviceView_proposed (shown : List δ) (event : Group.Event n) :
    List.filterMap serviceView (shown.map .service ++ [Event.paxos event]) = shown := by
  rw [List.filterMap_append, serviceView_map_service]
  exact List.append_nil shown

/-- The Paxos group below a service. -/
def group (S : Service (Fin n) κ σ α δ) (s : State n σ) : Group.State n where
  nodes i := ⟨(S.paxosLog (s.members i).state).withoutCallbacks,
    (s.members i).multiPaxosHandler, (s.members i).exception⟩
  network := s.network

/-- The promises with which an action completes a majority. -/
def completed (S : Service (Fin n) κ σ α δ) (s : State n σ) :
    Action n α → Option (List (ℕ × PaxosLogEntry))
  | .deliver position =>
      match s.network[position]? with
      | none => none
      | some packet =>
          if S.live (s.members packet.dst) then
            Group.completed (S.group s) (.deliver position)
          else none
  | _ => none

/-- Runs in which every majority of promises meets `ok`. -/
def restricted (S : Service (Fin n) κ σ α δ) (ok : List (ℕ × PaxosLogEntry) → Prop) :
    TransitionSystem (State n σ) (Event n δ) :=
  S.machine.guarded fun s a => ∀ promises ∈ S.completed s a, ok promises

theorem live_iff {m : Member n σ} :
    S.live m = true ↔ S.exception m.state = none ∧ m.exception = none := by
  simp [live]

/-! ## The simulation -/

/-- A group and an agreed log that do the same. No handler of the group has stopped a member.
The node of a member that its service has stopped goes on, but does nothing. -/
structure Refines (S : Service (Fin n) κ σ α δ) (trace : List (Event n δ)) (s : State n σ)
    (g : Group.State n) (t : AgreedState (Fin n) σ) : Prop where
  network : g.network = s.network
  handlers : ∀ i, (g.nodes i).multiPaxosHandler = (s.members i).multiPaxosHandler
  logs : ∀ i, S.live (s.members i) = true →
    (g.nodes i).paxosLog = (S.paxosLog (s.members i).state).withoutCallbacks
  participants : ∀ i, t.participants i = (s.members i).state
  running : ∀ i, (s.members i).exception = none
  agreed : Group.Agreed (trace.filterMap paxosView) t.agreedLog

def Simulated (S : Service (Fin n) κ σ α δ) (trace : List (Event n δ)) (s : State n σ) : Prop :=
  ∃ g t, (Group.restricted n Group.LastIsGreatest).Run (trace.filterMap paxosView) g ∧
    S.agreedMachine.system.Run (trace.filterMap serviceView) t ∧ S.Refines trace s g t

variable {trace events : List (Event n δ)} {s s' : State n σ} {g : Group.State n}
  {t t' : AgreedState (Fin n) σ}

theorem Refines.completed (h : S.Refines trace s g t) (position : ℕ) :
    Group.completed g (.deliver position) = Group.completed (S.group s) (.deliver position) := by
  have hinstance : ∀ i k, g.instanceAt i k = (S.group s).instanceAt i k := by
    intro i k
    simp only [Group.State.instanceAt, h.handlers, group]
  simp only [Group.completed, hinstance, h.network]
  rfl

/-- A step of one member, and of its node and its participant. -/
theorem Refines.update (h : S.Refines trace s g t) {i : Fin n} {m : Member n σ}
    (node : Group.Node n) (t' : AgreedState (Fin n) σ) {network : List (Group.Packet n)}
    (hhandler : node.multiPaxosHandler = m.multiPaxosHandler)
    (hlog : S.live m = true → node.paxosLog = (S.paxosLog m.state).withoutCallbacks)
    (hparticipants : t'.participants = Function.update t.participants i m.state)
    (hrunning : m.exception = none)
    (hagreed : Group.Agreed ((trace ++ events).filterMap paxosView) t'.agreedLog) :
    S.Refines (trace ++ events) (s.setMember i m network)
      ⟨Function.update g.nodes i node, network⟩ t' := by
  constructor
  · rfl
  · intro j
    by_cases hj : j = i
    · subst j
      simpa [State.setMember] using hhandler
    · simpa [State.setMember, hj] using h.handlers j
  · intro j hlive
    by_cases hj : j = i
    · subst j
      simp only [State.setMember, Function.update_self] at hlive ⊢
      exact hlog hlive
    · simp only [State.setMember, Function.update_of_ne hj] at hlive ⊢
      exact h.logs j hlive
  · intro j
    rw [hparticipants]
    by_cases hj : j = i
    · subst j
      simp [State.setMember]
    · simpa [State.setMember, hj] using h.participants j
  · intro j
    by_cases hj : j = i
    · subst j
      simpa [State.setMember] using hrunning
    · simpa [State.setMember, hj] using h.running j
  · exact hagreed

theorem Simulated.lose (h : S.Simulated trace s) {position : ℕ} {packet : Group.Packet n}
    (hpacket : s.network[position]? = some packet) :
    S.Simulated trace { s with network := s.network.eraseIdx position } := by
  obtain ⟨g, t, hg, ht, hR⟩ := h
  have hnext : Group.next g (.drop position) =
      some ([], { g with network := g.network.eraseIdx position }) := by
    simp only [Group.next, hR.network, hpacket]
  have hrun := hg.step ⟨.drop position, by simp [Group.completed], hnext⟩
  rw [List.append_nil] at hrun
  refine ⟨_, t, hrun, ht, ?_, hR.handlers, hR.logs, hR.participants, hR.running, hR.agreed⟩
  rw [hR.network]

theorem Simulated.sync (h : S.Simulated trace s) {i : Fin n}
    (hlive : S.live (s.members i) = true) :
    S.Simulated trace { s with network := s.network ++ S.sync (s.members i) i } := by
  obtain ⟨g, t, hg, ht, hR⟩ := h
  have hreachable : Group.Reachable g := ⟨_, Group.run_of_restricted hg⟩
  have hnext : Group.next g (.sync i) =
      some ([], { g with network := g.network ++ (g.nodes i).sync i }) := by
    simp [Group.next, hreachable.live]
  have hrun := hg.step ⟨.sync i, by simp [Group.completed], hnext⟩
  rw [List.append_nil] at hrun
  refine ⟨_, t, hrun, ht, ?_, hR.handlers, hR.logs, hR.participants, hR.running, hR.agreed⟩
  simp only [Group.Node.sync, Service.sync, LogSyncer.requestFor, hR.network, hR.logs i hlive,
    PaxosLog.withoutCallbacks_getAvailableIndices]

theorem Simulated.act (h : S.Simulated trace s) {i : Fin n} {a : α} {shown : List δ} {state : σ}
    (hlive : S.live (s.members i) = true)
    (hact : S.act i a (s.members i).state = some (shown, state, none)) :
    S.Simulated (trace ++ shown.map .service)
      (s.setMember i { s.members i with state := state } s.network) := by
  obtain ⟨g, t, hg, ht, hR⟩ := h
  have hnext : S.nextAgreed t (.act i a) =
      some (shown, ⟨Function.update t.participants i state, t.agreedLog⟩) := by
    simp only [nextAgreed, hR.participants, (live_iff.mp hlive).1, Option.isNone_none, if_true,
      hact, AgreedLog.offer]
  have hnodes : g = ⟨Function.update g.nodes i (g.nodes i), s.network⟩ := by
    rw [Function.update_eq_self, ← hR.network]
  refine ⟨g, ⟨Function.update t.participants i state, t.agreedLog⟩, ?_, ?_, ?_⟩
  · rw [List.filterMap_append, paxosView_map_service, List.append_nil]
    exact hg
  · rw [List.filterMap_append, serviceView_map_service]
    exact ht.step ⟨.act i a, trivial, hnext⟩
  · rw [hnodes]
    refine hR.update _ _ (hR.handlers i) ?_ rfl (hR.running i) ?_
    · intro _
      rw [hR.logs i hlive, S.act_paxosLog hact]
    · rw [List.filterMap_append, paxosView_map_service, List.append_nil]
      exact hR.agreed

theorem Simulated.propose (h : S.Simulated trace s) {i : Fin n} {draw : ℕ} {a : α}
    {shown : List δ} {state : σ} {index : ℕ} {entry : PaxosLogEntry}
    {multiPaxosHandler : MultiPaxosHandler (Fin n)} {effects : List (Effect (Fin n))}
    (hlive : S.live (s.members i) = true)
    (hact : S.act i a (s.members i).state = some (shown, state, some (index, entry)))
    (hdraw : draw ≤ 999) (hlt : index < 2 ^ 32)
    (hcall : (s.members i).multiPaxosHandler.propose (S.paxosLog state) draw entry =
      .ok (multiPaxosHandler, effects)) :
    S.Simulated (trace ++ (shown.map .service ++ [.paxos (.proposed i index entry)]))
      (s.setMember i ⟨state, multiPaxosHandler, (s.members i).exception⟩
        (s.network ++ effects.flatMap (Group.outgoing i))) := by
  obtain ⟨g, t, hg, ht, hR⟩ := h
  have hreachable : Group.Reachable g := ⟨_, Group.run_of_restricted hg⟩
  have hlog : (g.nodes i).paxosLog = (S.paxosLog (s.members i).state).withoutCallbacks :=
    hR.logs i hlive
  have hindex : (g.nodes i).paxosLog.nextAvailableIndex = .ok index := by
    rw [hlog]
    exact S.act_index hact
  have hgroup : Group.next g (.propose i draw entry) = some ([.proposed i index entry],
      ⟨Function.update g.nodes i { g.nodes i with multiPaxosHandler := multiPaxosHandler },
        s.network ++ effects.flatMap (Group.outgoing i)⟩) := by
    have hcall' : (g.nodes i).multiPaxosHandler.propose (g.nodes i).paxosLog draw entry =
        .ok (multiPaxosHandler, effects) := by
      rw [hlog, hR.handlers, PaxosLog.withoutCallbacks_propose, ← S.act_paxosLog hact]
      exact hcall
    simp only [Group.next, hdraw, hreachable.live, hindex, hlt, Group.Node.propose, hcall',
      Group.State.finish, hR.network, Option.isNone_none, and_self, if_true]
    rfl
  have hnext : S.nextAgreed t (.act i a) = some (shown,
      ⟨Function.update t.participants i state, t.agreedLog.propose index entry⟩) := by
    simp only [nextAgreed, hR.participants, (live_iff.mp hlive).1, Option.isNone_none, if_true,
      hact, AgreedLog.offer]
  refine ⟨_, _, ?_, ?_, hR.update { g.nodes i with multiPaxosHandler := multiPaxosHandler }
    ⟨Function.update t.participants i state, t.agreedLog.propose index entry⟩ rfl ?_ rfl
    (hR.running i) ?_⟩
  · rw [List.filterMap_append, paxosView_proposed]
    exact hg.step ⟨.propose i draw entry, by simp [Group.completed], hgroup⟩
  · rw [List.filterMap_append, serviceView_proposed]
    exact ht.step ⟨.act i a, trivial, hnext⟩
  · intro _
    rw [S.act_paxosLog hact]
    exact hlog
  · rw [List.filterMap_append, paxosView_proposed]
    exact hR.agreed.propose i index entry

/-! ## Messages -/

theorem Simulated.syncRequest (h : S.Simulated trace s) {position : ℕ} {src dst : Fin n}
    {request : SyncRequest} {response : SyncResponse}
    (hpacket : s.network[position]? = some ⟨src, dst, .syncRequest request⟩)
    (hlive : S.live (s.members dst) = true)
    (hcall : LogSyncer.buildSyncResponse (S.paxosLog (s.members dst).state) request =
      .ok response) :
    S.Simulated trace
      { s with
        network := s.network.eraseIdx position ++ [⟨dst, src, .syncResponse response⟩] } := by
  obtain ⟨g, t, hg, ht, hR⟩ := h
  have hreachable : Group.Reachable g := ⟨_, Group.run_of_restricted hg⟩
  have hpacket' : g.network[position]? = some ⟨src, dst, .syncRequest request⟩ := by
    rw [hR.network]
    exact hpacket
  have hhandle : (g.nodes dst).handle ⟨src, dst, .syncRequest request⟩ =
      .ok (g.nodes dst, [], [⟨dst, src, .syncResponse response⟩]) := by
    simp only [Group.Node.handle, hR.logs dst hlive,
      PaxosLog.withoutCallbacks_buildSyncResponse, hcall]
    rfl
  have hnext := hreachable.next_deliver hpacket' hhandle
  rw [Function.update_eq_self] at hnext
  have hrun := hg.step ⟨.deliver position, by simp [Group.completed, hpacket'], hnext⟩
  rw [List.append_nil] at hrun
  refine ⟨_, t, hrun, ht, ?_, hR.handlers, hR.logs, hR.participants, hR.running, hR.agreed⟩
  rw [hR.network]

/-- A member sets entries of the agreed log, and so do its node and its participant. -/
theorem Refines.write (h : S.Refines trace s g t) {i : Fin n}
    (hlive : S.live (s.members i) = true) {entries : List (ℕ × PaxosLogEntry)}
    {multiPaxosHandler : MultiPaxosHandler (Fin n)} {network : List (Group.Packet n)}
    (node : Group.Node n) {calls : List (Call Empty)} {shown : List (Group.Event n)}
    (hset : (g.nodes i).paxosLog.setEntries entries = .ok (node.paxosLog, calls))
    (hhandler : node.multiPaxosHandler = multiPaxosHandler)
    (hg : (Group.restricted n Group.LastIsGreatest).Run (trace.filterMap paxosView ++ shown)
      ⟨Function.update g.nodes i node, network⟩)
    (ht : S.agreedMachine.system.Run (trace.filterMap serviceView) t')
    (hparticipants : t'.participants = t.participants)
    (hagreed : Group.Agreed (trace.filterMap paxosView ++ shown) t'.agreedLog)
    (hentries : ∀ x ∈ entries, t'.agreedLog.entries[x.1]? = some x.2) :
    S.Simulated
      (trace ++ shownBy shown (S.setEntries i (s.members i).state entries).1)
      (s.setMember i
        ⟨(S.setEntries i (s.members i).state entries).2, multiPaxosHandler,
          (s.members i).exception⟩ network) := by
  have hstate : t'.participants i = (s.members i).state := by
    rw [hparticipants, h.participants]
  have hexception : S.exception (t'.participants i) = none := by
    rw [hstate]
    exact (live_iff.mp hlive).1
  have hrun := run_setEntries ht hexception hentries
  rw [hstate] at hrun
  refine ⟨_, { t' with
    participants := Function.update t'.participants i
      (S.setEntries i (s.members i).state entries).2 }, ?_, ?_, h.update node _ hhandler ?_ ?_
      (h.running i) ?_⟩
  · rw [List.filterMap_append, paxosView_shownBy]
    exact hg
  · rw [List.filterMap_append, serviceView_shownBy]
    exact hrun
  · intro hlive'
    obtain ⟨calls', hset'⟩ := setEntries_paxosLog (live_iff.mp hlive').1
    rw [h.logs i hlive, hset'] at hset
    exact (Prod.mk.inj (Except.ok.inj hset)).1.symm
  · simp only [hparticipants]
  · rw [List.filterMap_append, paxosView_shownBy]
    exact hagreed

theorem Simulated.syncResponse (h : S.Simulated trace s) {position : ℕ} {src dst : Fin n}
    {response : SyncResponse}
    (hpacket : s.network[position]? = some ⟨src, dst, .syncResponse response⟩)
    (hlive : S.live (s.members dst) = true) :
    S.Simulated
      (trace ++ shownBy [] (S.setEntries dst (s.members dst).state
        (response.missingEntries.map fun x => (x.index.toNat, x.entry))).1)
      (s.setMember dst
        { s.members dst with
          state := (S.setEntries dst (s.members dst).state
            (response.missingEntries.map fun x => (x.index.toNat, x.entry))).2 }
        (s.network.eraseIdx position)) := by
  obtain ⟨g, t, hg, ht, hR⟩ := h
  have hreachable : Group.Reachable g := ⟨_, Group.run_of_restricted hg⟩
  have hpacket' : g.network[position]? = some ⟨src, dst, .syncResponse response⟩ := by
    rw [hR.network]
    exact hpacket
  obtain ⟨paxosLog, calls, hset⟩ := hreachable.handleSyncResponse_ok dst response
  have hhandle : (g.nodes dst).handle ⟨src, dst, .syncResponse response⟩ =
      .ok ({ g.nodes dst with paxosLog := paxosLog }, [], []) := by
    simp only [Group.Node.handle, hset]
    rfl
  have hnext := hreachable.next_deliver hpacket' hhandle
  have hrun := hg.step ⟨.deliver position, by simp [Group.completed, hpacket'], hnext⟩
  rw [hR.network] at hrun
  have hagreed : Group.Agreed (trace.filterMap paxosView ++ []) t.agreedLog := by
    rw [List.append_nil]
    exact hR.agreed
  have hentries : ∀ x ∈ response.missingEntries.map fun x => (x.index.toNat, x.entry),
      t.agreedLog.entries[x.1]? = some x.2 := by
    intro x hx
    obtain ⟨y, hy, rfl⟩ := List.mem_map.mp hx
    have hinv := Group.logInv_of_run (Group.run_of_restricted hg)
    have hlearned := hinv.response src dst response (List.mem_of_getElem? hpacket') y hy
    exact (hR.agreed.entries _ _).mpr hlearned
  have hwrite := hR.write hlive { g.nodes dst with paxosLog := paxosLog } hset
    (hR.handlers dst) hrun ht rfl hagreed hentries
  rw [List.append_nil] at hwrite
  exact hwrite

/-- A learner writes when it has learned, and it does nothing else then. -/
theorem write_cases (dst : Fin n) {src : Fin n} {content : PaxosMessage.Content}
    {h h' : SinglePaxosHandler (Fin n)} {effects : List (Effect (Fin n))}
    (hcall : MultiPaxosHandler.dispatch h src content = .ok (h', effects)) :
    (∃ index vrnd entry, effects.filterMap Group.written = [(index, entry)] ∧
      effects.filterMap (Group.shown dst content) = [.learned dst index vrnd entry]) ∨
    (effects.filterMap Group.written = [] ∧
      ∀ d index vrnd entry, .learned d index vrnd entry ∉
        effects.filterMap (Group.shown dst content)) := by
  by_cases hwrites : ∃ index entry, .setEntry index entry ∈ effects
  · obtain ⟨index, entry, hmem⟩ := hwrites
    obtain ⟨⟨vrnd, vval, rfl⟩, rfl⟩ := Group.setEntry_of_dispatch hcall hmem
    exact .inl ⟨index, vrnd, entry, rfl, rfl⟩
  · right
    constructor
    · rw [List.filterMap_eq_nil_iff]
      intro effect heffect
      cases effect with
      | setEntry index entry => exact absurd ⟨index, entry, heffect⟩ hwrites
      | _ => rfl
    · intro d index vrnd entry hmem
      obtain ⟨effect, heffect, hshown⟩ := List.mem_filterMap.mp hmem
      cases effect with
      | setEntry index' entry' => exact hwrites ⟨index', entry', heffect⟩
      | _ =>
          simp only [Group.shown] at hshown
          split at hshown <;> cases hshown

theorem Simulated.paxos (h : S.Simulated trace s) {position : ℕ} {src dst : Fin n}
    {message : PaxosMessage} {multiPaxosHandler : MultiPaxosHandler (Fin n)}
    {effects : List (Effect (Fin n))}
    (hpacket : s.network[position]? = some ⟨src, dst, .paxosMessage message⟩)
    (hlive : S.live (s.members dst) = true)
    (hcall : (s.members dst).multiPaxosHandler.handleIncomingMessage src message =
      .ok (multiPaxosHandler, effects))
    (hok : ∀ promises ∈ S.completed s (.deliver position), Group.LastIsGreatest promises) :
    S.Simulated
      (trace ++ shownBy (effects.filterMap (Group.shown dst message.content))
        (S.setEntries dst (s.members dst).state (effects.filterMap Group.written)).1)
      (s.setMember dst
        ⟨(S.setEntries dst (s.members dst).state (effects.filterMap Group.written)).2,
          multiPaxosHandler, (s.members dst).exception⟩
        (s.network.eraseIdx position ++ effects.flatMap (Group.outgoing dst))) := by
  obtain ⟨g, t, hg, ht, hR⟩ := h
  have hreachable : Group.Reachable g := ⟨_, Group.run_of_restricted hg⟩
  have hpacket' : g.network[position]? = some ⟨src, dst, .paxosMessage message⟩ := by
    rw [hR.network]
    exact hpacket
  rw [← hR.handlers] at hcall
  obtain ⟨h', hdispatch, rfl⟩ : ∃ h', MultiPaxosHandler.dispatch
      (g.instanceAt dst message.paxosIndex.toNat) src message.content = .ok (h', effects) ∧
      (g.nodes dst).multiPaxosHandler.setInstance message.paxosIndex.toNat h' =
        multiPaxosHandler := by
    simp only [MultiPaxosHandler.handleIncomingMessage, bind, Except.bind] at hcall
    split at hcall
    · cases hcall
    · rename_i result hresult
      cases hcall
      exact ⟨_, hresult, rfl⟩
  have hindex : ∀ p ∈ effects.filterMap Group.written, p.1 < 2 ^ 64 - 1 := by
    intro p hp
    have hlt := hreachable.written_lt hdispatch p hp
    omega
  obtain ⟨paxosLog, calls, hset, -⟩ := (hreachable.wellFormed dst).setEntries _ hindex
  have hhandle : (g.nodes dst).handle ⟨src, dst, .paxosMessage message⟩ =
      .ok ({ g.nodes dst with
          multiPaxosHandler :=
            (g.nodes dst).multiPaxosHandler.setInstance message.paxosIndex.toNat h'
          paxosLog := paxosLog },
        effects.filterMap (Group.shown dst message.content),
        effects.flatMap (Group.outgoing dst)) := by
    simp only [Group.Node.handle, hcall, hset, bind, Except.bind]
    rfl
  have hnext := hreachable.next_deliver hpacket' hhandle
  have hok' : ∀ promises ∈ Group.completed g (.deliver position),
      Group.LastIsGreatest promises := by
    rw [hR.completed]
    simpa only [completed, hpacket, hlive, if_true] using hok
  have hrun := hg.step ⟨.deliver position, hok', hnext⟩
  rw [hR.network] at hrun
  rcases write_cases dst hdispatch with ⟨index, vrnd, entry, hwritten, hshown⟩ |
    ⟨hwritten, hshown⟩
  · rw [hwritten] at hset ⊢
    rw [hshown] at hrun ⊢
    obtain ⟨L, hL, hagreed, hentry⟩ := hR.agreed.learn hrun
    have hentries : ∀ x ∈ [(index, entry)], L.entries[x.1]? = some x.2 := by
      intro x hx
      rw [List.mem_singleton.mp hx]
      exact hentry
    rcases hL with rfl | ⟨k, hk⟩
    · exact hR.write hlive _ hset rfl hrun ht rfl hagreed hentries
    · have hlength := hR.agreed.length_le (Group.run_of_restricted hg)
      have hchoose : S.nextAgreed t (.choose k) = some ([], { t with agreedLog := L }) := by
        simp only [nextAgreed, hk]
        rw [if_pos (by omega)]
      have ht' := ht.step ⟨.choose k, trivial, hchoose⟩
      rw [List.append_nil] at ht'
      exact hR.write hlive _ hset rfl hrun ht' rfl hagreed hentries
  · rw [hwritten] at hset ⊢
    refine hR.write hlive _ hset rfl hrun ht rfl ?_ (by simp)
    exact hR.agreed.frame hshown (Group.proposed_not_shown dst message.content effects)

/-! ## No handler fails -/

theorem propose_ok {i : Fin n} {a : α} {p p' : σ} {shown : List δ} {index : ℕ}
    {entry : PaxosLogEntry} (hact : S.act i a p = some (shown, p', some (index, entry)))
    (m : MultiPaxosHandler (Fin n)) (draw : ℕ) {exception : UniversalException} :
    m.propose (S.paxosLog p') draw entry ≠ .error exception := by
  have hindex := S.act_index hact
  rw [← S.act_paxosLog hact] at hindex
  intro hcall
  rw [MultiPaxosHandler.propose, hindex] at hcall
  cases hcall

theorem Simulated.handle_ok (h : S.Simulated trace s) {position : ℕ} {src dst : Fin n}
    {message : PaxosMessage}
    (hpacket : s.network[position]? = some ⟨src, dst, .paxosMessage message⟩)
    {exception : UniversalException} :
    (s.members dst).multiPaxosHandler.handleIncomingMessage src message ≠ .error exception := by
  obtain ⟨g, t, hg, ht, hR⟩ := h
  have hreachable : Group.Reachable g := ⟨_, Group.run_of_restricted hg⟩
  rw [← hR.network] at hpacket
  obtain ⟨⟨h', effects⟩, hdispatch⟩ := hreachable.dispatch_ok (List.mem_of_getElem? hpacket)
  rw [Group.State.instanceAt] at hdispatch
  rw [← hR.handlers, MultiPaxosHandler.handleIncomingMessage, hdispatch]
  intro hcall
  cases hcall

theorem Simulated.buildSyncResponse_ok (h : S.Simulated trace s) {dst : Fin n}
    (hlive : S.live (s.members dst) = true) (request : SyncRequest)
    {exception : UniversalException} :
    LogSyncer.buildSyncResponse (S.paxosLog (s.members dst).state) request ≠
      .error exception := by
  obtain ⟨g, t, hg, ht, hR⟩ := h
  have hreachable : Group.Reachable g := ⟨_, Group.run_of_restricted hg⟩
  obtain ⟨response, hresponse⟩ := hreachable.buildSyncResponse_ok dst request
  rw [hR.logs dst hlive, PaxosLog.withoutCallbacks_buildSyncResponse] at hresponse
  rw [hresponse]
  intro hcall
  cases hcall

/-! ## Runs -/

theorem simulated_initial : S.Simulated [] S.initial := by
  refine ⟨Group.State.initial n, ⟨fun _ => S.new, .empty⟩, .start rfl, .start rfl, rfl,
    fun _ => rfl, ?_, fun _ => rfl, fun _ => rfl, Group.agreed_empty⟩
  intro i _
  exact S.new_paxosLog.symm

theorem Simulated.move (h : S.Simulated trace s) {a : Action n α}
    (hmove : S.Move s a events s')
    (hok : ∀ promises ∈ S.completed s a, Group.LastIsGreatest promises) :
    S.Simulated (trace ++ events) s' := by
  cases hmove with
  | lose hpacket =>
      rw [List.append_nil]
      exact h.lose hpacket
  | failPropose hact hcall => exact absurd hcall (propose_ok hact _ _)
  | failPaxos hpacket hcall => exact absurd hcall (h.handle_ok hpacket)
  | failSync hlive hcall => exact absurd hcall (h.buildSyncResponse_ok hlive _)
  | sync hlive =>
      rw [List.append_nil]
      exact h.sync hlive
  | act hlive hact => exact h.act hlive hact
  | propose hlive hact hdraw hlt hcall => exact h.propose hlive hact hdraw hlt hcall
  | paxos hpacket hlive hcall => exact h.paxos hpacket hlive hcall hok
  | syncRequest hpacket hlive hcall =>
      rw [List.append_nil]
      exact h.syncRequest hpacket hlive hcall
  | syncResponse hpacket hlive => exact h.syncResponse hpacket hlive

/-- Every run of a service on a Paxos group is one over an agreed log, and one of the
group. -/
theorem simulated_of_run (h : (S.restricted Group.LastIsGreatest).Run trace s) :
    S.Simulated trace s := by
  apply h.invariant
  · rintro s rfl
    exact simulated_initial
  · rintro trace s events s' - hsim ⟨a, hok, hnext⟩
    exact hsim.move (move_of_next hnext) hok

end UniversalDB.Service
