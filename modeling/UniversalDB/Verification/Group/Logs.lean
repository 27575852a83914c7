import UniversalDB.Verification.Group.Simulation
import UniversalDB.Verification.LogSyncer
import UniversalDB.Verification.PaxosLog.Callbacks

/-! # What the logs of a group hold -/

namespace UniversalDB.Group

open SinglePaxosHandler MultiPaxosHandler

variable {n : ℕ}

def LearnedAt (trace : List (Event n)) (index : ℕ) (entry : PaxosLogEntry) : Prop :=
  ∃ d r, .learned d index r entry ∈ trace

theorem LearnedAt.append {trace : List (Event n)} {index : ℕ} {entry : PaxosLogEntry}
    (h : LearnedAt trace index entry) (events : List (Event n)) :
    LearnedAt (trace ++ events) index entry := by
  obtain ⟨d, r, hmem⟩ := h
  exact ⟨d, r, List.mem_append_left _ hmem⟩

/-- Whatever a log or a response on its way holds has been learned, and an entry is
proposed only behind learned entries. -/
structure LogInv (trace : List (Event n)) (s : State n) : Prop where
  wellFormed : ∀ i, (s.nodes i).paxosLog.WellFormed
  bounded : ∀ i index entry, (s.nodes i).paxosLog.log index = some entry → index < 2 ^ 32
  learned : ∀ i index entry, (s.nodes i).paxosLog.log index = some entry →
    LearnedAt trace index entry
  response : ∀ src dst response, ⟨src, dst, .syncResponse response⟩ ∈ s.network →
    ∀ x ∈ response.missingEntries, LearnedAt trace x.index.toNat x.entry
  proposed : ∀ i index entry, .proposed i index entry ∈ trace →
    ∀ k < index, ∃ e, LearnedAt trace k e

theorem logInv_initial : LogInv [] (State.initial n) := by
  constructor
  · intro i
    exact PaxosLog.new_wellFormed
  all_goals simp [State.initial, Node.new, PaxosLog.new]

section Step

variable {trace events : List (Event n)} {s s' : State n}

/-- A step that leaves the logs alone: new responses carry learned entries, and new
proposals lie behind learned entries. -/
theorem LogInv.extend (h : LogInv trace s)
    (hlog : ∀ i, (s'.nodes i).paxosLog = (s.nodes i).paxosLog)
    (hnet : ∀ src dst response, ⟨src, dst, .syncResponse response⟩ ∈ s'.network →
      ⟨src, dst, .syncResponse response⟩ ∈ s.network ∨
        ∀ x ∈ response.missingEntries, LearnedAt trace x.index.toNat x.entry)
    (hevents : ∀ i index entry, .proposed i index entry ∈ events →
      ∀ k < index, ∃ e, LearnedAt trace k e) :
    LogInv (trace ++ events) s' := by
  constructor
  · intro i
    rw [hlog]
    exact h.wellFormed i
  · intro i index entry hentry
    rw [hlog] at hentry
    exact h.bounded i index entry hentry
  · intro i index entry hentry
    rw [hlog] at hentry
    exact (h.learned i index entry hentry).append events
  · intro src dst response hmem x hx
    rcases hnet src dst response hmem with hold | hnew
    · exact (h.response src dst response hold x hx).append events
    · exact (hnew x hx).append events
  · intro i index entry hmem k hk
    have hlearned : ∃ e, LearnedAt trace k e := by
      rcases List.mem_append.mp hmem with hold | hnew
      · exact h.proposed i index entry hold k hk
      · exact hevents i index entry hnew k hk
    obtain ⟨e, he⟩ := hlearned
    exact ⟨e, he.append events⟩

/-- A step that leaves the logs alone, proposes nothing and sends no response. -/
theorem LogInv.frame (h : LogInv trace s)
    (hlog : ∀ i, (s'.nodes i).paxosLog = (s.nodes i).paxosLog)
    (hnet : ∀ src dst response, ⟨src, dst, .syncResponse response⟩ ∈ s'.network →
      ⟨src, dst, .syncResponse response⟩ ∈ s.network)
    (hevents : ∀ i index entry, .proposed i index entry ∉ events) :
    LogInv (trace ++ events) s' := by
  apply h.extend hlog
  · intro src dst response hmem
    exact .inl (hnet src dst response hmem)
  · intro i index entry hmem
    exact absurd hmem (hevents i index entry)

/-- A step that sets learned entries on the log of one node. -/
theorem LogInv.setEntries (h : LogInv trace s) {self : Fin n} {node : Node n}
    {entries : List (ℕ × PaxosLogEntry)} {calls : List (Call Empty)}
    (hset : (s.nodes self).paxosLog.setEntries entries = .ok (node.paxosLog, calls))
    (hnodes : s'.nodes = Function.update s.nodes self node)
    (hentries : ∀ p ∈ entries, p.1 < 2 ^ 32 ∧ LearnedAt (trace ++ events) p.1 p.2)
    (hnet : ∀ src dst response, ⟨src, dst, .syncResponse response⟩ ∈ s'.network →
      ⟨src, dst, .syncResponse response⟩ ∈ s.network)
    (hevents : ∀ i index entry, .proposed i index entry ∉ events) :
    LogInv (trace ++ events) s' := by
  have hindex : ∀ p ∈ entries, p.1 < 2 ^ 64 - 1 := by
    intro p hp
    have := (hentries p hp).1
    omega
  obtain ⟨hwf, hmem⟩ := (h.wellFormed self).mem_of_setEntries hindex hset
  have hlog : ∀ i index entry, (s'.nodes i).paxosLog.log index = some entry →
      (s.nodes i).paxosLog.log index = some entry ∨ (index, entry) ∈ entries := by
    intro i index entry hentry
    rw [hnodes] at hentry
    by_cases hi : i = self
    · subst i
      rw [Function.update_self] at hentry
      exact hmem index entry hentry
    · rw [Function.update_of_ne hi] at hentry
      exact .inl hentry
  constructor
  · intro i
    rw [hnodes]
    by_cases hi : i = self
    · subst i
      simpa using hwf
    · simpa [hi] using h.wellFormed i
  · intro i index entry hentry
    rcases hlog i index entry hentry with hold | hnew
    · exact h.bounded i index entry hold
    · exact (hentries _ hnew).1
  · intro i index entry hentry
    rcases hlog i index entry hentry with hold | hnew
    · exact (h.learned i index entry hold).append events
    · exact (hentries _ hnew).2
  · intro src dst response hmem x hx
    exact (h.response src dst response (hnet _ _ _ hmem) x hx).append events
  · intro i index entry hmem k hk
    rcases List.mem_append.mp hmem with hmem | hmem
    · obtain ⟨e, he⟩ := h.proposed i index entry hmem k hk
      exact ⟨e, he.append events⟩
    · exact absurd hmem (hevents i index entry)

/-- An entry that a handler call writes is shown as learned. -/
theorem learned_of_written {h h' : SinglePaxosHandler (Fin n)} {src : Fin n}
    (self : Fin n) {content : PaxosMessage.Content} {effects : List (Effect (Fin n))}
    (hcall : dispatch h src content = .ok (h', effects)) {p : ℕ × PaxosLogEntry}
    (hp : p ∈ effects.filterMap written) :
    ∃ r, .learned self p.1 r p.2 ∈ effects.filterMap (shown self content) := by
  obtain ⟨effect, heffect, hwritten⟩ := List.mem_filterMap.mp hp
  cases effect with
  | broadcast endpoints message => cases hwritten
  | send dst message => cases hwritten
  | setEntry index entry =>
      cases hwritten
      obtain ⟨⟨vrnd, vval, rfl⟩, rfl⟩ := setEntry_of_dispatch hcall heffect
      exact ⟨vrnd, by simp [shown]⟩

theorem proposed_not_shown (self : Fin n) (content : PaxosMessage.Content)
    (effects : List (Effect (Fin n))) (i : Fin n) (index : ℕ) (entry : PaxosLogEntry) :
    .proposed i index entry ∉ effects.filterMap (shown self content) := by
  intro hmem
  obtain ⟨effect, -, hshown⟩ := List.mem_filterMap.mp hmem
  cases effect <;> simp only [shown] at hshown <;> split at hshown <;> cases hshown

theorem syncResponse_not_outgoing {src dst : Fin n} {response : SyncResponse} {self : Fin n}
    {effects : List (Effect (Fin n))} :
    ⟨src, dst, .syncResponse response⟩ ∉ effects.flatMap (outgoing self) := by
  intro hmem
  obtain ⟨effect, -, hout⟩ := List.mem_flatMap.mp hmem
  cases effect with
  | broadcast endpoints message =>
      obtain ⟨d, -, heq⟩ := List.mem_map.mp hout
      cases heq
  | send d message => cases List.mem_singleton.mp hout
  | setEntry index entry => cases hout

/-- The log of a node stays when only its handler or its exception changes. -/
theorem paxosLog_update {self : Fin n} {node : Node n}
    (hlog : node.paxosLog = (s.nodes self).paxosLog) (i : Fin n) :
    (Function.update s.nodes self node i).paxosLog = (s.nodes i).paxosLog := by
  by_cases hi : i = self
  · subst i
    rw [Function.update_self]
    exact hlog
  · rw [Function.update_of_ne hi]

/-- A handler call writes at its own index, which fits the index field of a message. -/
theorem LogInv.paxos (h : LogInv trace s) (hcfg : ∀ i k, Configured n k (s.instanceAt i k))
    {position : ℕ} {src dst : Fin n} {message : PaxosMessage} {h' : SinglePaxosHandler (Fin n)}
    {effects : List (Effect (Fin n))} {paxosLog : PaxosLog Empty} {calls : List (Call Empty)}
    (hcall : dispatch (s.instanceAt dst message.paxosIndex.toNat) src message.content =
      .ok (h', effects))
    (hset : (s.nodes dst).paxosLog.setEntries (effects.filterMap written) =
      .ok (paxosLog, calls)) :
    LogInv (trace ++ effects.filterMap (shown dst message.content))
      ⟨Function.update s.nodes dst
        { s.nodes dst with
          multiPaxosHandler :=
            (s.nodes dst).multiPaxosHandler.setInstance message.paxosIndex.toNat h'
          paxosLog := paxosLog },
        s.network.eraseIdx position ++ effects.flatMap (outgoing dst)⟩ := by
  apply h.setEntries hset rfl
  · intro p hp
    obtain ⟨r, hr⟩ := learned_of_written dst hcall hp
    refine ⟨?_, dst, r, List.mem_append_right _ hr⟩
    obtain ⟨effect, heffect, hwritten⟩ := List.mem_filterMap.mp hp
    have habout := (dispatch_frame hcall).effects effect heffect
    cases effect with
    | broadcast endpoints message => cases hwritten
    | send d message => cases hwritten
    | setEntry index entry =>
        cases hwritten
        have hindex : index = message.paxosIndex.toNat :=
          habout.trans (hcfg dst message.paxosIndex.toNat).paxosLogIndex
        have hlt := message.paxosIndex.toNat_lt
        simp only [hindex]
        omega
  · intro s₀ d response hmem
    rcases List.mem_append.mp hmem with hold | hnew
    · exact List.mem_of_mem_eraseIdx hold
    · exact absurd hnew syncResponse_not_outgoing
  · exact proposed_not_shown dst _ effects

/-- A response carries entries of the log it is built from. -/
theorem LogInv.copied (h : LogInv trace s) {dst : Fin n} {request : SyncRequest}
    {response : SyncResponse}
    (hcall : LogSyncer.buildSyncResponse (s.nodes dst).paxosLog request = .ok response) :
    ∀ x ∈ response.missingEntries, LearnedAt trace x.index.toNat x.entry := by
  intro x hx
  obtain ⟨i, hi, hentry⟩ := LogSyncer.buildSyncResponse_copies hcall x hx
  have hlt := h.bounded dst i x.entry hentry
  have hnat : x.index.toNat = i := by
    rw [hi, UInt32.toNat_ofNat']
    exact Nat.mod_eq_of_lt hlt
  rw [hnat]
  exact h.learned dst i x.entry hentry

theorem LogInv.step (h : LogInv trace s) (hcfg : ∀ i k, Configured n k (s.instanceAt i k))
    {a : Action n} (hmove : Move s a events s') : LogInv (trace ++ events) s' := by
  cases hmove with
  | lose hpacket =>
      apply h.frame
      · intro i
        rfl
      · intro src dst response hmem
        exact List.mem_of_mem_eraseIdx hmem
      · simp
  | sync self =>
      apply h.frame
      · intro i
        rfl
      · intro src dst response hmem
        rcases List.mem_append.mp hmem with hold | hnew
        · exact hold
        · obtain ⟨request, -, d, heq⟩ := mem_sync.mp hnew
          cases heq
      · simp
  | stop self exception hnet =>
      apply h.frame
      · exact paxosLog_update rfl
      · intro src dst response hmem
        rcases hnet with rfl | ⟨position, packet, -, rfl⟩
        · exact hmem
        · exact List.mem_of_mem_eraseIdx hmem
      · simp
  | @propose self draw entry index h' effects hnext hlt hcall =>
      apply h.extend
      · exact paxosLog_update rfl
      · intro src dst response hmem
        rcases List.mem_append.mp hmem with hold | hnew
        · exact .inl hold
        · exact absurd hnew syncResponse_not_outgoing
      · intro i j e hmem k hk
        cases List.mem_singleton.mp hmem
        have hgap := (h.wellFormed self).nextAvailableIndex_eq.mp hnext
        obtain ⟨e', he'⟩ := Option.isSome_iff_exists.mp (hgap.below k hk)
        exact ⟨e', h.learned self k e' he'⟩
  | paxos hpacket hcall hset => exact h.paxos hcfg hcall hset
  | syncRequest hpacket hcall =>
      apply h.extend
      · intro i
        rfl
      · intro s₀ d response' hmem
        rcases List.mem_append.mp hmem with hold | hnew
        · exact .inl (List.mem_of_mem_eraseIdx hold)
        · cases List.mem_singleton.mp hnew
          exact .inr (h.copied hcall)
      · simp
  | @syncResponse position src dst response paxosLog calls hpacket hcall =>
      let node : Node n := { s.nodes dst with paxosLog := paxosLog }
      have hset : (s.nodes dst).paxosLog.setEntries
          (response.missingEntries.map fun x => (x.index.toNat, x.entry)) =
            .ok (node.paxosLog, calls) := hcall
      apply h.setEntries hset rfl
      · intro p hp
        obtain ⟨x, hx, rfl⟩ := List.mem_map.mp hp
        have hmem := List.mem_of_getElem? hpacket
        exact ⟨x.index.toNat_lt, (h.response src dst response hmem x hx).append _⟩
      · intro s₀ d response' hmem
        exact List.mem_of_mem_eraseIdx hmem
      · simp

end Step

theorem logInv_of_run {trace : List (Event n)} {s : State n}
    (h : (machine n).system.Run trace s) : LogInv trace s := by
  apply h.invariant
  · rintro s rfl
    exact logInv_initial
  · rintro trace s events s' hrun ih ⟨a, -, hnext⟩
    exact ih.step (configured_of_run hrun) (move_of_next hnext)

end UniversalDB.Group
