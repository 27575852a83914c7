import UniversalDB.Verification.Group.Agreement
import UniversalDB.Verification.Group.Calls
import UniversalDB.Verification.LogSyncer.CatchUp

/-! # What the nodes of a group can bring about

The continuations in which only the nodes of a set take steps. -/

namespace UniversalDB.Group

open SinglePaxosHandler MultiPaxosHandler

variable {n : ℕ}

/-- The node that acts. -/
def actor (s : State n) : Action n → Option (Fin n)
  | .propose self _ _ => some self
  | .sync self => some self
  | .deliver position => s.network[position]?.map Packet.dst
  | .drop _ => none

/-- The steps in which a node of `up` acts. -/
def among (up : Finset (Fin n)) : TransitionSystem (State n) (Event n) :=
  (machine n).guarded fun s a => ∃ i ∈ up, actor s a = some i

theorem Reachable.of_leads {up : Finset (Fin n)} {s s' : State n} (h : Reachable s)
    (hleads : (among up).Leads s s') : Reachable s' := by
  obtain ⟨trace, hrun⟩ := h
  apply hleads.run ?_ hrun
  rintro s events s' ⟨a, -, hnext⟩
  exact ⟨a, trivial, hnext⟩

theorem leads_of_next {up : Finset (Fin n)} {s s' : State n} {a : Action n} {i : Fin n}
    (hi : i ∈ up) (hactor : actor s a = some i) {events : List (Event n)}
    (hnext : next s a = some (events, s')) : (among up).Leads s s' :=
  .of_step ⟨a, ⟨i, hi, hactor⟩, hnext⟩

/-! ## Logs only grow -/

theorem subMap_update {s : State n} {self : Fin n} {node : Node n}
    (hlog : (s.nodes self).paxosLog.log.SubMap node.paxosLog.log) (i : Fin n) :
    (s.nodes i).paxosLog.log.SubMap (Function.update s.nodes self node i).paxosLog.log := by
  by_cases hi : i = self
  · subst i
    rw [Function.update_self]
    exact hlog
  · rw [Function.update_of_ne hi]
    exact .refl _

theorem setEntries_spec {l l' : PaxosLog Empty} (hl : l.WellFormed)
    {entries : List (ℕ × PaxosLogEntry)} (hindex : ∀ p ∈ entries, p.1 < 2 ^ 32)
    {calls : List (Call Empty)} (hset : l.setEntries entries = .ok (l', calls)) :
    l.SetEntries entries l' calls := by
  obtain ⟨l₁, calls₁, hset₁, hspec⟩ := hl.setEntries entries fun p hp =>
    (hindex p hp).trans (by decide)
  rw [hset] at hset₁
  cases hset₁
  exact hspec

theorem Reachable.subMap_of_move {s s' : State n} (h : Reachable s) {a : Action n}
    {events : List (Event n)} (hmove : Move s a events s') (i : Fin n) :
    (s.nodes i).paxosLog.log.SubMap (s'.nodes i).paxosLog.log := by
  cases hmove with
  | lose hpacket => exact .refl _
  | sync self => exact .refl _
  | stop self exception hnet =>
      apply subMap_update
      exact .refl _
  | propose hindex hlt hcall =>
      apply subMap_update
      exact .refl _
  | @paxos position src dst message h' effects paxosLog calls hpacket hcall hset =>
      exact subMap_update (setEntries_spec (h.wellFormed dst) (h.written_lt hcall) hset).subMap i
  | syncRequest hpacket hcall => exact .refl _
  | @syncResponse position src dst response paxosLog calls hpacket hcall =>
      refine subMap_update (setEntries_spec (h.wellFormed dst) ?_ hcall).subMap i
      intro p hp
      obtain ⟨x, -, rfl⟩ := List.mem_map.mp hp
      exact x.index.toNat_lt

theorem Reachable.subMap_of_leads {up : Finset (Fin n)} {s s' : State n} (h : Reachable s)
    (hleads : (among up).Leads s s') (i : Fin n) :
    (s.nodes i).paxosLog.log.SubMap (s'.nodes i).paxosLog.log := by
  induction hleads with
  | refl => exact .refl _
  | @tail s₁ s₂ hleads hstep ih =>
      obtain ⟨events, a, -, hnext⟩ := hstep
      have hlast := (h.of_leads hleads).subMap_of_move (move_of_next hnext) i
      intro index entry hentry
      exact hlast index entry (ih index entry hentry)

/-! ## A learner that has learned has written -/

theorem learned_of_handled {h h' : SinglePaxosHandler (Fin n)} {src : Fin n}
    {content : PaxosMessage.Content} {effects : List (Effect (Fin n))}
    (hhandled : Handled h src content h' effects) (hlearned : h'.learnerState.learned = true) :
    h.learnerState.learned = true ∨ ∃ entry, effects = [.setEntry h.paxosLogIndex entry] := by
  cases hhandled with
  | heard hvotes hlt => cases hlearned
  | @learned vrnd vval value count hvotes hfull => exact .inr ⟨value, rfl⟩
  | _ => exact .inl hlearned

/-- An instance that has learned has an entry in the log. -/
def LearnedWritten (s : State n) : Prop :=
  ∀ i k, (s.instanceAt i k).learnerState.learned = true →
    ((s.nodes i).paxosLog.log k).isSome

theorem LearnedWritten.step {s s' : State n} (h : LearnedWritten s) (hs : Reachable s)
    {a : Action n} {events : List (Event n)} (hmove : Move s a events s') :
    LearnedWritten s' := by
  have hgrow := hs.subMap_of_move hmove
  have hold : ∀ i k, (s.instanceAt i k).learnerState.learned = true →
      ((s'.nodes i).paxosLog.log k).isSome := by
    intro i k hlearned
    obtain ⟨entry, hentry⟩ := Option.isSome_iff_exists.mp (h i k hlearned)
    rw [hgrow i k entry hentry]
    rfl
  intro i k hlearned
  cases hmove with
  | lose hpacket => exact hold i k hlearned
  | sync self => exact hold i k hlearned
  | stop self exception hnet =>
      rw [instanceAt_update_same] at hlearned
      · exact hold i k hlearned
      · rfl
  | propose hindex hlt hcall =>
      rw [instanceAt_update s _ _ k _ rfl] at hlearned
      split at hlearned
      · rename_i hself
        obtain ⟨rfl, rfl⟩ := hself
        cases hcall
        exact hold i k hlearned
      · exact hold i k hlearned
  | @paxos position src dst message h' effects paxosLog calls hpacket hcall hset =>
      rw [instanceAt_update s _ _ k _ rfl] at hlearned
      split at hlearned
      · rename_i hself
        obtain ⟨rfl, rfl⟩ := hself
        rcases learned_of_handled (handled_of_dispatch hcall) hlearned with hlearned | ⟨e, rfl⟩
        · exact hold i _ hlearned
        · have hspec := setEntries_spec (hs.wellFormed i) (hs.written_lt hcall) hset
          have hindex : ((s.nodes i).multiPaxosHandler.getInstance
              message.paxosIndex.toNat).paxosLogIndex = message.paxosIndex.toNat :=
            (hs.configured i message.paxosIndex.toNat).paxosLogIndex
          have hlog := hspec.log message.paxosIndex.toNat
          simp only [written, List.filterMap_cons, List.filterMap_nil, hindex,
            PaxosLog.firstEntry_cons, if_true] at hlog
          simp [hlog]
      · exact hold i k hlearned
  | syncRequest hpacket hcall => exact hold i k hlearned
  | syncResponse hpacket hcall =>
      rw [instanceAt_update_same] at hlearned
      · exact hold i k hlearned
      · rfl

theorem Reachable.learned_written {s : State n} (h : Reachable s) : LearnedWritten s := by
  obtain ⟨trace, hrun⟩ := h
  apply hrun.invariant (I := fun _ s => LearnedWritten s)
  · rintro s rfl i k hlearned
    cases hlearned
  · rintro trace s events s' hrun ih ⟨a, -, hnext⟩
    exact ih.step ⟨trace, hrun⟩ (move_of_next hnext)

/-! ## Numbers above all promises are fresh -/

/-- No promise for the number has been counted, and no vote. -/
structure Fresh (h : SinglePaxosHandler (Fin n)) (rnd : ℕ) : Prop where
  promises : ∀ promises, h.proposerState.prepareState rnd = some promises → promises = []
  votes : h.learnerState.learnedValue rnd = none

theorem Reachable.fresh {s : State n} (h : Reachable s) {k rnd : ℕ}
    (hrnd : ∀ i, (s.instanceAt i k).acceptorState.rnd < rnd) (p : Fin n) :
    Fresh (s.instanceAt p k) rnd := by
  obtain ⟨trace, hrun⟩ := h
  obtain ⟨t, habstract, hrefines⟩ := simulation (restricted_of_run hrun) k
  have hacceptors := Synod.acceptorInv_of_run habstract
  have hlearners := Synod.learnInv_of_run (majority_majority n _) habstract
  have hlt : ∀ a, (t.acceptor a).rnd < rnd := by
    intro a
    have hacceptor := (hrefines.represents a).acceptor
    simp only [localState] at hacceptor
    rw [hacceptor]
    exact hrnd a
  constructor
  · intro promises hstate
    obtain ⟨ps, hps, rfl⟩ := exists_promises (hrefines.represents p) hstate
    cases ps with
    | nil => rfl
    | cons x ps =>
        have hpromised := (Synod.promiseInv_of_run habstract).mem p rnd _ hps x
          List.mem_cons_self
        have hle := hacceptors.promised_le _ _ _ _ _ hpromised
        exact absurd (hlt x.1) (Nat.not_lt.mpr hle)
  · have htally := (hrefines.represents p).tally rnd
    simp only [localState] at htally
    rw [htally, Option.map_eq_none_iff]
    cases hvotes : t.tally p rnd with
    | none => rfl
    | some votes =>
        obtain ⟨value, voters⟩ := votes
        obtain ⟨a, ha⟩ := List.exists_mem_of_ne_nil _ (hlearners.nonempty p rnd value voters hvotes)
        have haccepted := hlearners.mem p rnd value voters hvotes a ha
        have hle := (hacceptors.accepted_le a rnd value haccepted).trans (hacceptors.vrnd_le a)
        exact absurd (hlt a) (Nat.not_lt.mpr hle)

/-! ## Calls that can be brought about -/

def packetAt (k : ℕ) (src dst : Fin n) (content : PaxosMessage.Content) : Packet n :=
  ⟨src, dst, .paxosMessage ⟨UInt32.ofNat k, content⟩⟩

theorem packetAt_inj {k : ℕ} {src src' dst dst' : Fin n}
    {content content' : PaxosMessage.Content} :
    packetAt k src dst content = packetAt k src' dst' content' ↔
      src = src' ∧ dst = dst' ∧ content = content' := by
  simp [packetAt]

/-- A call of the instance at `k` on one node, by which no packet is lost but the one that
is handled. -/
structure Called (s : State n) (i₀ : Fin n) (k : ℕ) (handled : Packet n → Prop)
    (h' : SinglePaxosHandler (Fin n)) (effects : List (Effect (Fin n))) (s' : State n) :
    Prop where
  reachable : Reachable s'
  instances : ∀ i j, s'.instanceAt i j = if i = i₀ ∧ j = k then h' else s.instanceAt i j
  log : ∀ i j, (s'.nodes i).paxosLog.log j = if i = i₀ then
      ((s.nodes i₀).paxosLog.log j).or (PaxosLog.firstEntry (effects.filterMap written) j)
    else (s.nodes i).paxosLog.log j
  elsewhere : ∀ p ∈ effects.filterMap written, p.1 = k
  kept : ∀ packet ∈ s.network, ¬ handled packet → packet ∈ s'.network
  sent : ∀ packet ∈ effects.flatMap (outgoing i₀), packet ∈ s'.network

section Bring

variable {s : State n} {up : Finset (Fin n)} {k : ℕ}

theorem Reachable.deliver (h : Reachable s) (hk : k < 2 ^ 32) {src dst : Fin n}
    {content : PaxosMessage.Content} (hdst : dst ∈ up)
    (hmem : packetAt k src dst content ∈ s.network) {h' : SinglePaxosHandler (Fin n)}
    {effects : List (Effect (Fin n))}
    (hcall : dispatch (s.instanceAt dst k) src content = .ok (h', effects)) :
    ∃ s', (among up).Leads s s' ∧
      Called s dst k (· = packetAt k src dst content) h' effects s' := by
  let message : PaxosMessage := ⟨UInt32.ofNat k, content⟩
  have hnat : message.paxosIndex.toNat = k := UInt32.toNat_ofNat_of_lt' hk
  obtain ⟨position, hpacket⟩ := List.mem_iff_getElem?.mp hmem
  have hcall' : dispatch (s.instanceAt dst message.paxosIndex.toNat) src message.content =
      .ok (h', effects) := by
    rw [hnat]
    exact hcall
  obtain ⟨paxosLog, hlog, hhandle⟩ := h.handle_paxos hcall'
  rw [hnat] at hhandle
  have hnext : next s (.deliver position) =
      some (_, ⟨Function.update s.nodes dst _, _⟩) := h.next_deliver hpacket hhandle
  have hwritten := h.written_index hcall'
  rw [hnat] at hwritten
  refine ⟨_, leads_of_next hdst (by simp [actor, hpacket, packetAt]) hnext, h.step hnext,
    ?_, ?_, hwritten, ?_, ?_⟩
  · intro i j
    exact instanceAt_update s dst k j _ rfl i
  · intro i j
    by_cases hi : i = dst
    · subst i
      simp [hlog]
    · simp [hi]
  · intro packet hmem' hne
    exact List.mem_append_left _ (mem_eraseIdx_of_ne hpacket hmem' hne)
  · intro packet hsent
    exact List.mem_append_right _ hsent

theorem Reachable.propose (h : Reachable s) (hk : k < 2 ^ 32) {p : Fin n} (hp : p ∈ up)
    (hgap : (s.nodes p).paxosLog.log.FirstGap k) {draw : ℕ} (hdraw : draw ≤ 999)
    (entry : PaxosLogEntry) :
    ∃ s', (among up).Leads s s' ∧
      Called s p k (fun _ => False) ((s.instanceAt p k).propose draw entry).1
        ((s.instanceAt p k).propose draw entry).2 s' := by
  have hindex := (h.wellFormed p).nextAvailableIndex_eq.mpr hgap
  have hnext : next s (.propose p draw entry) = some
      ([.proposed p k entry],
        ⟨Function.update s.nodes p
          { s.nodes p with
            multiPaxosHandler := (s.nodes p).multiPaxosHandler.setInstance k
              ((s.instanceAt p k).propose draw entry).1 },
          s.network ++ ((s.instanceAt p k).propose draw entry).2.flatMap (outgoing p)⟩) := by
    simp only [next, hindex]
    rw [if_pos ⟨hdraw, by rw [h.live]; rfl⟩, if_pos hk, h.propose_ok p hgap]
    rfl
  refine ⟨_, leads_of_next hp rfl hnext, h.step hnext, ?_, ?_, ?_, ?_, ?_⟩
  · intro i j
    exact instanceAt_update s p k j _ rfl i
  · intro i j
    by_cases hi : i = p
    · have hnone : ((s.instanceAt p k).propose draw entry).2.filterMap written = [] := rfl
      simp [hi, hnone]
    · simp [hi]
  · intro written hmem
    cases hmem
  · intro packet hmem _
    exact List.mem_append_left _ hmem
  · intro packet hsent
    exact List.mem_append_right _ hsent

/-! ### Catching up -/

theorem Reachable.encode_of_requestFor (h : Reachable s) {i : Fin n} {request : SyncRequest}
    (hrequest : LogSyncer.requestFor (s.nodes i).paxosLog = some request) :
    request = LogSyncer.encode (s.nodes i).paxosLog.availableIndices := by
  apply LogSyncer.encode_of_requestFor (h.wellFormed i) _ hrequest
  intro index hindex
  have hlt := h.bounded i hindex
  omega

/-- A request that can be built is sent to every node. -/
theorem Reachable.ask (h : Reachable s) {i : Fin n} (hi : i ∈ up) (p : Fin n)
    (hlength : (s.nodes i).paxosLog.getAvailableIndices.length < 2 ^ 31) :
    ∃ s', (among up).Leads s s' ∧ s'.nodes = s.nodes ∧
      ⟨i, p, .syncRequest (LogSyncer.encode (s.nodes i).paxosLog.availableIndices)⟩ ∈
        s'.network := by
  have hrequest := LogSyncer.requestFor_eq (h.wellFormed i) (fun index hindex => by
    have hlt := h.bounded i hindex
    omega) hlength
  have hnext : next s (.sync i) =
      some ([], { s with network := s.network ++ (s.nodes i).sync i }) := by
    simp only [next]
    rw [if_pos (by rw [h.live]; rfl)]
  refine ⟨_, leads_of_next hi rfl hnext, rfl, ?_⟩
  apply List.mem_append_right
  exact mem_sync.mpr ⟨_, hrequest, p, rfl⟩

theorem Reachable.answer (h : Reachable s) {i p : Fin n} (hp : p ∈ up) {request : SyncRequest}
    (hmem : ⟨i, p, .syncRequest request⟩ ∈ s.network) {response : SyncResponse}
    (hresponse : LogSyncer.buildSyncResponse (s.nodes p).paxosLog request = .ok response) :
    ∃ s', (among up).Leads s s' ∧ s'.nodes = s.nodes ∧
      ⟨p, i, .syncResponse response⟩ ∈ s'.network := by
  obtain ⟨position, hpacket⟩ := List.mem_iff_getElem?.mp hmem
  have hhandle : (s.nodes p).handle ⟨i, p, .syncRequest request⟩ =
      .ok (s.nodes p, [], [⟨p, i, .syncResponse response⟩]) := by
    simp only [Node.handle, hresponse]
    rfl
  have hnext := h.next_deliver hpacket hhandle
  rw [Function.update_eq_self] at hnext
  refine ⟨_, leads_of_next hp (by simp [actor, hpacket]) hnext, rfl, ?_⟩
  exact List.mem_append_right _ (List.mem_singleton_self _)

theorem Reachable.install (h : Reachable s) {i p : Fin n} (hi : i ∈ up)
    {response : SyncResponse} (hmem : ⟨p, i, .syncResponse response⟩ ∈ s.network)
    {paxosLog : PaxosLog Empty} {calls : List (Call Empty)}
    (hset : LogSyncer.handleSyncResponse (s.nodes i).paxosLog response =
      .ok (paxosLog, calls)) :
    ∃ s', (among up).Leads s s' ∧
      s'.nodes = Function.update s.nodes i { s.nodes i with paxosLog := paxosLog } := by
  obtain ⟨position, hpacket⟩ := List.mem_iff_getElem?.mp hmem
  have hhandle : (s.nodes i).handle ⟨p, i, .syncResponse response⟩ =
      .ok ({ s.nodes i with paxosLog := paxosLog }, [], []) := by
    simp only [Node.handle, hset]
    rfl
  exact ⟨_, leads_of_next hi (by simp [actor, hpacket]) (h.next_deliver hpacket hhandle), rfl⟩

/-- A node asks another one for the entries it lacks, and gets them. No node has more
available indices than before. -/
theorem Reachable.catch_up (h : Reachable s) {i p : Fin n} (hi : i ∈ up) (hp : p ∈ up) {m : ℕ}
    (hgap : (s.nodes p).paxosLog.log.FirstGap m)
    (hlength : (s.nodes i).paxosLog.getAvailableIndices.length < 2 ^ 31) :
    ∃ s', (among up).Leads s s' ∧ (∀ j k, s'.instanceAt j k = s.instanceAt j k) ∧
      (∀ j, (s'.nodes j).paxosLog.getAvailableIndices.length ≤
        (s.nodes j).paxosLog.getAvailableIndices.length) ∧
      ∀ index < m, ((s'.nodes i).paxosLog.log index).isSome := by
  have hwidth : ∀ index, ((s.nodes p).paxosLog.log index).isSome → index < 2 ^ 32 :=
    fun _ => h.bounded p
  obtain ⟨s₁, hask, hnodes₁, hmem₁⟩ := h.ask hi p hlength
  obtain ⟨response, hresponse⟩ := h.buildSyncResponse_ok p
    (LogSyncer.encode (s.nodes i).paxosLog.availableIndices)
  obtain ⟨s₂, hanswer, hnodes₂, hmem₂⟩ := (h.of_leads hask).answer hp hmem₁
    (by rw [hnodes₁]; exact hresponse)
  obtain ⟨paxosLog, calls, hset, hcaught⟩ := LogSyncer.handleSyncResponse_stale
    (h.wellFormed i) (h.wellFormed i) (.refl _) (h.wellFormed p) hgap hwidth hresponse
  rw [← hnodes₁, ← hnodes₂] at hset
  obtain ⟨s₃, hinstall, hnodes₃⟩ := ((h.of_leads hask).of_leads hanswer).install hi hmem₂ hset
  rw [hnodes₂, hnodes₁] at hnodes₃
  refine ⟨s₃, hask.trans (hanswer.trans hinstall), ?_, ?_, ?_⟩
  · intro j k
    simp only [State.instanceAt, hnodes₃]
    by_cases hj : j = i
    · simp [hj]
    · simp [hj]
  · intro j
    rw [hnodes₃]
    by_cases hj : j = i
    · subst j
      rw [Function.update_self]
      exact hcaught.length_le (h.wellFormed i)
    · rw [Function.update_of_ne hj]
  · intro index hindex
    rw [hnodes₃, Function.update_self]
    exact hcaught.reached index hindex

end Bring

end UniversalDB.Group
