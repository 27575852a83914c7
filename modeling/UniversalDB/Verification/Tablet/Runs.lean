import UniversalDB.Verification.Tablet.Invariant

/-! # The invariant of a tablet holds in every run -/

namespace UniversalDB.Tablet

open ClientRequestHandler

variable {ι ε : Type} {R : KVStore → KVStore → Prop} {trace events : List (Event ι ε)}
  {s s' : State ι ε}

/-- Only a callback stops a participant with this exception. -/
theorem runTask_error {p : TabletParticipant ε} {task : Task ε}
    {exception : UniversalException} (h : runTask p task = .error exception) :
    exception ≠ pastError := by
  unfold runTask at h
  split at h
  · unfold fulfilled at h
    split at h
    · split at h
      · cases h
        simp [pastError]
      · dsimp only at h
        split at h <;> cases h
        decide
    · cases h
    · cases h
      simp [pastError]
  · split at h
    · cases h
    · split at h
      · cases h
      · cases htype : task.message.requestType <;>
          simp only [logEntry, htype, universalTerminate] at h <;> cases h
        simp [pastError]

/-- The response of a task that ends is answered by the agreed log. -/
theorem ParticipantInv.answered {G : List PaxosLogEntry} {i : ι} {p : TabletParticipant ε}
    (h : ParticipantInv R trace G i p) (hR : Coupling R) (hlive : p.exception = none)
    {message : ClientRequest} {entryIndex : Option ℕ} {kvstore : KVStore}
    {response : ClientResponse} (hanswer : Answer p message entryIndex kvstore response) :
    Answered G message response entryIndex := by
  obtain ⟨k, hk⟩ := h.progress
  obtain ⟨-, hregistered⟩ := hk.current (by simp [hlive])
  cases hanswer with
  | @read entryIndex entry hid htype hentry =>
      obtain ⟨hlt, entry', hentry', hid'⟩ := hregistered.sound _ _ hid
      have hG := h.subMap entryIndex entry hentry
      rw [hentry'] at hG
      cases hG
      obtain ⟨store, hreplay, hcoupled⟩ := hk.store
      refine ⟨entry, hentry', hid', .inr ⟨htype, k, store, hlt, h.le_length hk, hreplay, ?_⟩⟩
      rw [readLogged_value (hR.ahead hcoupled)]
  | written hid htype =>
      obtain ⟨-, entry', hentry', hid'⟩ := hregistered.sound _ _ hid
      exact ⟨entry', hentry', hid', .inl ⟨htype, rfl⟩⟩
  | refused hid => rfl

theorem ParticipantInv.handleRequest {G : List PaxosLogEntry} {i : ι}
    {p : TabletParticipant ε} (h : ParticipantInv R trace G i p) (endpointId : ε)
    (message : ClientRequest) :
    ParticipantInv R (trace ++ [.requested i endpointId message]) G i
      (handleRequest p endpointId message) := by
  have hold := h.extend [.requested i endpointId message] (by simp)
  obtain ⟨k, hk⟩ := hold.progress
  constructor
  · exact hold.wellFormed
  · exact hold.callbacks
  · exact hold.subMap
  · exact ⟨k, hk.store, hk.le, hk.current, hk.applied, hk.inOrder⟩
  · exact hold.safe
  · intro task htask
    rcases List.mem_append.mp htask with htask | htask
    · exact hold.tasks task htask
    · rw [List.mem_singleton.mp htask]
      exact ⟨i, endpointId, by simp⟩

/-! ## Steps -/

/-- The agreed log gets a proposal. -/
theorem Inv.propose (h : Inv R trace s) {index : ℕ} {entry : PaxosLogEntry}
    (hindex : index ≤ s.agreedLog.entries.length)
    (hadmissible : Admissible (s.agreedLog.entries.take index) entry)
    (hrequested : Requested trace entry) :
    Inv R trace { s with agreedLog := s.agreedLog.propose index entry } := by
  constructor
  · exact h.participants
  · exact h.pinned.propose hindex hadmissible
  · intro index' entry' hmem
    rcases List.mem_append.mp hmem with hold | hnew
    · exact h.proposals index' entry' hold
    · cases List.mem_singleton.mp hnew
      exact hrequested
  · exact h.entries
  · exact h.length
  · exact h.responded

/-- The agreed log gets an entry. -/
theorem Inv.choose (h : Inv R trace s) (hlength : s.agreedLog.entries.length < 2 ^ 64 - 1)
    {k : ℕ} {agreedLog : AgreedLog PaxosLogEntry}
    (hchoose : s.agreedLog.choose k = some agreedLog) :
    Inv R trace { s with agreedLog := agreedLog } := by
  obtain ⟨entry, hmem, hentries, hproposals⟩ := AgreedLog.choose_cases hchoose
  constructor
  · intro i
    have hmono := (h.participants i).mono [] (by simp) [entry]
    rw [List.append_nil] at hmono
    rw [hentries]
    exact hmono
  · exact h.pinned.choose hchoose
  · intro index entry' hp
    rw [hproposals] at hp
    exact h.proposals index entry' hp
  · intro index entry' hentry
    rw [hentries] at hentry
    rcases List.mem_append.mp (List.mem_of_getElem? hentry) with hold | hnew
    · obtain ⟨j, hj⟩ := List.mem_iff_getElem?.mp hold
      exact h.entries j entry' hj
    · cases List.mem_singleton.mp hnew
      exact h.proposals _ _ hmem
  · rw [hentries, List.length_append, List.length_singleton]
    omega
  · intro i endpointId message entryIndex response hresponded
    obtain ⟨hreq, hanswered⟩ := h.responded _ _ _ _ _ hresponded
    rw [hentries]
    exact ⟨hreq, hanswered.append [entry]⟩

variable [DecidableEq ι]

/-- A step of one participant that leaves the agreed log alone. -/
theorem Inv.of_participant (h : Inv R trace s) {i : ι} {p' : TabletParticipant ε}
    (hp : ParticipantInv R (trace ++ events) s.agreedLog.entries i p')
    (hevents : ∀ i' ≠ i, ∀ j value, .applied i' j value ∉ events)
    (hresponded : ∀ i' endpointId message entryIndex response,
      .responded i' endpointId message entryIndex response ∈ events →
        (∃ i' endpointId', .requested i' endpointId' message ∈ trace) ∧
          Answered s.agreedLog.entries message response entryIndex) :
    Inv R (trace ++ events)
      { s with participants := Function.update s.participants i p' } := by
  constructor
  · intro i'
    by_cases heq : i' = i
    · subst heq
      simp only [Function.update_self]
      exact hp
    · simp only [Function.update_of_ne heq]
      exact (h.participants i').extend events (hevents i' heq)
  · exact h.pinned
  · intro index entry hmem
    exact (h.proposals index entry hmem).append events
  · intro index entry hentry
    exact (h.entries index entry hentry).append events
  · exact h.length
  · intro i' endpointId message entryIndex response hmem
    rcases List.mem_append.mp hmem with hmem | hmem
    · obtain ⟨⟨i'', endpointId', hreq⟩, hanswered⟩ := h.responded _ _ _ _ _ hmem
      exact ⟨⟨i'', endpointId', List.mem_append_left _ hreq⟩, hanswered⟩
    · obtain ⟨⟨i'', endpointId', hreq⟩, hanswered⟩ := hresponded _ _ _ _ _ hmem
      exact ⟨⟨i'', endpointId', List.mem_append_left _ hreq⟩, hanswered⟩

theorem Inv.request (h : Inv R trace s) (i : ι) (endpointId : ε)
    (message : ClientRequest) :
    Inv R (trace ++ [.requested i endpointId message])
      { s with
        participants := Function.update s.participants i
          (ClientRequestHandler.handleRequest (s.participants i) endpointId message) } := by
  apply h.of_participant
  · exact (h.participants i).handleRequest endpointId message
  · simp
  · simp

theorem Inv.fail (h : Inv R trace s) {i : ι} {task : Task ε}
    {exception : UniversalException} (hlive : (s.participants i).exception = none)
    (hrun : runTask (s.participants i) task = .error exception) :
    Inv R trace
      { s with
        participants := Function.update s.participants i
          { s.participants i with exception := some exception } } := by
  rw [← List.append_nil trace]
  apply h.of_participant
  · rw [List.append_nil]
    refine (h.participants i).update rfl rfl (fun k hk => hk) hlive ?_ ?_
    · intro heq
      exact runTask_error hrun (Option.some.inj heq)
    · exact (h.participants i).tasks
  · simp
  · simp

theorem Inv.respond (h : Inv R trace s) (hR : Coupling R) {i : ι}
    {task : Task ε} {rest : List (Task ε)} {entryIndex : Option ℕ} {kvstore : KVStore}
    {response : ClientResponse} (hqueue : (s.participants i).asyncQueue = task :: rest)
    (hlive : (s.participants i).exception = none)
    (hanswer : Answer (s.participants i) task.message entryIndex kvstore response)
    (hstore : ∀ store, R store (s.participants i).kvstore → R store kvstore) :
    Inv R (trace ++ [.responded i task.endpointId task.message entryIndex response])
      { s with
        participants := Function.update s.participants i
          { s.participants i with kvstore := kvstore, asyncQueue := rest } } := by
  have htasks := (h.participants i).tasks
  rw [hqueue] at htasks
  apply h.of_participant
  · have hold := (h.participants i).extend
      [.responded i task.endpointId task.message entryIndex response] (by simp)
    refine hold.update rfl rfl ?_ hlive (by simp [hlive]) ?_
    · rintro k ⟨store, hreplay, hcoupled⟩
      exact ⟨store, hreplay, hstore store hcoupled⟩
    · intro task' htask'
      exact hold.tasks task' (by rw [hqueue]; exact List.mem_cons_of_mem _ htask')
  · simp
  · intro i' endpointId message entryIndex' response' hmem
    cases List.mem_singleton.mp hmem
    obtain ⟨i'', endpointId', hrequested⟩ := htasks task List.mem_cons_self
    exact ⟨⟨i'', endpointId', hrequested⟩, (h.participants i).answered hR hlive hanswer⟩

/-- A task that waits stays in front of the queue, and its entry is proposed. -/
theorem Inv.wait (h : Inv R trace s) (hR : Coupling R) {i : ι}
    {task : Task ε} {rest : List (Task ε)} {entry : PaxosLogEntry} {index : ℕ}
    (hqueue : (s.participants i).asyncQueue = task :: rest)
    (hlive : (s.participants i).exception = none)
    (hid : (s.participants i).requestIdMap task.message.requestId = none)
    (hlegal : illegalWrite (s.participants i).kvstore task.message = false)
    (hentry : logEntry task.message = .ok entry)
    (hindex : (s.participants i).paxosLog.nextAvailableIndex = .ok index) :
    Inv R (trace ++ [.proposed i index entry])
      ⟨Function.update s.participants i
        { s.participants i with
          asyncQueue := { task with retryCount := task.retryCount + 1 } :: rest },
        s.agreedLog.propose index entry⟩ := by
  have htasks := (h.participants i).tasks
  rw [hqueue] at htasks
  have hwaiting : Inv R (trace ++ [.proposed i index entry])
      { s with
        participants := Function.update s.participants i
          { s.participants i with
            asyncQueue := { task with retryCount := task.retryCount + 1 } :: rest } } := by
    apply h.of_participant
    · have hold := (h.participants i).extend [.proposed i index entry] (by simp)
      refine hold.update rfl rfl (fun k hk => hk) hlive (by simp [hlive]) ?_
      intro task' htask'
      rcases List.mem_cons.mp htask' with heq | hmem
      · rw [heq]
        exact hold.tasks task (by rw [hqueue]; exact List.mem_cons_self)
      · exact hold.tasks task' (by rw [hqueue]; exact List.mem_cons_of_mem _ hmem)
    · simp
    · simp
  obtain ⟨i', endpointId, hrequested⟩ := htasks task List.mem_cons_self
  obtain ⟨hle, hadmissible⟩ := (h.participants i).admissible hR hlive hid hlegal hentry hindex
  apply hwaiting.propose hle hadmissible
  exact ⟨i', endpointId, task.message, List.mem_append_left _ hrequested, hentry⟩

theorem Inv.learn (h : Inv R trace s) (hR : Coupling R) {i : ι} {index : ℕ}
    {entry : PaxosLogEntry} (hlive : (s.participants i).exception = none)
    (hentry : s.agreedLog.entries[index]? = some entry) :
    Inv R (trace ++ (Tablet.learn i (s.participants i) index entry).1)
      { s with
        participants := Function.update s.participants i
          (Tablet.learn i (s.participants i) index entry).2 } := by
  have hlt := (List.getElem?_eq_some_iff.mp hentry).1
  have hlength := h.length
  obtain ⟨hevents, hp⟩ := (h.participants i).learn hR (legal_of_pinned h.pinned) hlive hentry
    (by omega)
  apply h.of_participant hp
  · intro i' hne j value hmem
    obtain ⟨j', value', heq⟩ := hevents _ hmem
    cases heq
    exact hne rfl
  · intro i' endpointId message entryIndex response hmem
    obtain ⟨j', value', heq⟩ := hevents _ hmem
    cases heq

/-- A step whose answered read keeps the stores coupled preserves the invariant. -/
theorem Inv.move (h : Inv R trace s) (hR : Coupling R) {a : Action ι ε}
    (hread : ∀ x ∈ answeredRead s a, ∀ store, R store x.1 → R store (readLogged x.1 x.2).2)
    (hmove : Move s a events s') : Inv R (trace ++ events) s' := by
  cases hmove with
  | request i endpointId message => exact h.request i endpointId message
  | fail hqueue hlive hrun =>
      rw [List.append_nil]
      exact h.fail hlive hrun
  | @respond i task rest kvstore response hqueue hlive hanswer =>
      apply h.respond hR hqueue hlive hanswer
      intro store hcoupled
      generalize hid : (s.participants i).requestIdMap task.message.requestId = entryIndex
        at hanswer
      cases hanswer with
      | read hid' htype hentry =>
          have hanswered := answeredRead_of_answer hqueue hid' htype hentry
          exact hread _ (by rw [hanswered]; rfl) store hcoupled
      | written hid' htype => exact hcoupled
      | refused hid' => exact hcoupled
  | propose hqueue hlive hid hlegal hentry hindex =>
      exact h.wait hR hqueue hlive hid hlegal hentry hindex
  | @failPropose i exception s' hindex =>
      obtain ⟨m, hm, -⟩ := (h.participants i).wellFormed.nextAvailableIndex
      rw [hindex] at hm
      cases hm
  | choose hlength hchoose =>
      rw [List.append_nil]
      exact h.choose hlength hchoose
  | learn hlive hentry => exact h.learn hR hlive hentry

/-! ## Runs -/

theorem inv_of_run (hR : Coupling R) {allowed : KVStore → Read → Prop}
    (hread : ∀ store kvstore content, allowed kvstore content → R store kvstore →
      R store (readLogged kvstore content).2)
    (h : (restricted ι ε allowed).Run trace s) : Inv R trace s := by
  apply TransitionSystem.Run.invariant _ _ h
  · rintro s rfl
    exact initial_inv hR
  · rintro trace s events s' - hinv ⟨a, hallowed, hnext⟩
    apply hinv.move hR _ (move_of_next hnext)
    intro x hx store hcoupled
    exact hread store x.1 x.2 (hallowed x hx) hcoupled

/-- In every run the stores of the participants are ahead of the replayed log only in their
last access timestamps. -/
theorem ahead_of_run (h : (machine ι ε).system.Run trace s) : Inv KVStore.Ahead trace s := by
  apply inv_of_run coupling_ahead _ (restricted_of_run h)
  intro store kvstore content _ hcoupled
  exact hcoupled.lookup_right _ _

end UniversalDB.Tablet
