import UniversalDB.Verification.Tablet.Progress
import UniversalDB.Verification.Tablet.Steps

/-! # The invariant of a tablet -/

namespace UniversalDB.Tablet

open ClientRequestHandler

variable {ι ε : Type}

/-! ## One participant -/

/-- A participant has applied the first `k` entries of the agreed entries `G`. -/
structure AppliedTo (R : KVStore → KVStore → Prop) (trace : List (Event ι ε))
    (G : List PaxosLogEntry) (i : ι) (p : TabletParticipant ε) (k : ℕ) : Prop where
  store : StoreAt R G k p.kvstore
  le : ∀ m, p.paxosLog.log.FirstGap m → k ≤ m
  current : p.exception ≠ some pastError →
    p.paxosLog.log.FirstGap k ∧ Registered G k p.requestIdMap
  applied : ∀ j value, .applied i j value ∈ trace → j < k ∧ AppliedAs G j value
  inOrder : AppliedInOrder i trace

structure ParticipantInv (R : KVStore → KVStore → Prop) (trace : List (Event ι ε))
    (G : List PaxosLogEntry) (i : ι) (p : TabletParticipant ε) : Prop where
  wellFormed : p.paxosLog.WellFormed
  callbacks : p.paxosLog.callbacks = (PaxosLog.register registrations).callbacks
  subMap : ∀ j entry, p.paxosLog.log j = some entry → G[j]? = some entry
  progress : ∃ k, AppliedTo R trace G i p k
  safe : p.exception = some pastError → ¬ Safe R
  tasks : ∀ task ∈ p.asyncQueue, ∃ i' endpointId, .requested i' endpointId task.message ∈ trace

theorem FirstGap.le_length {log : KeyMap ℕ PaxosLogEntry} {G : List PaxosLogEntry} {m : ℕ}
    (h : log.FirstGap m) (hsub : ∀ j entry, log j = some entry → G[j]? = some entry) :
    m ≤ G.length := by
  by_contra hlt
  obtain ⟨entry, hentry⟩ := Option.isSome_iff_exists.mp (h.below G.length (by omega))
  have hget := hsub G.length entry hentry
  rw [List.getElem?_eq_none le_rfl] at hget
  cases hget

theorem StoreAt.append {R : KVStore → KVStore → Prop} {G : List PaxosLogEntry} {k : ℕ}
    {kvstore : KVStore} (h : StoreAt R G k kvstore) (hk : k ≤ G.length)
    (rest : List PaxosLogEntry) : StoreAt R (G ++ rest) k kvstore := by
  obtain ⟨store, hreplay, hcoupled⟩ := h
  refine ⟨store, ?_, hcoupled⟩
  rw [List.take_append_of_le_length hk]
  exact hreplay

theorem Registered.append {G : List PaxosLogEntry} {k : ℕ} {requestIdMap : KeyMap String ℕ}
    (h : Registered G k requestIdMap) (hk : k ≤ G.length) (rest : List PaxosLogEntry) :
    Registered (G ++ rest) k requestIdMap := by
  constructor
  · intro id j hj
    obtain ⟨hlt, entry, hentry, hid⟩ := h.sound id j hj
    exact ⟨hlt, entry, by rw [List.getElem?_append_left (by omega)]; exact hentry, hid⟩
  · intro j hj entry id hentry hid
    rw [List.getElem?_append_left (by omega)] at hentry
    exact h.complete j hj entry id hentry hid

theorem AppliedAs.append {G : List PaxosLogEntry} {j : ℕ} {value : Option String}
    (h : AppliedAs G j value) (hj : j ≤ G.length) (rest : List PaxosLogEntry) :
    AppliedAs (G ++ rest) j value := by
  obtain ⟨entry, store, hentry, hreplay, hvalue⟩ := h
  refine ⟨entry, store, ?_, ?_, hvalue⟩
  · rw [List.getElem?_append_left (List.getElem?_eq_some_iff.mp hentry).1]
    exact hentry
  · rw [List.take_append_of_le_length hj]
    exact hreplay

variable {R : KVStore → KVStore → Prop} {trace : List (Event ι ε)}
  {G : List PaxosLogEntry} {i : ι} {p : TabletParticipant ε}

theorem ParticipantInv.le_length (h : ParticipantInv R trace G i p) {k : ℕ}
    (hk : AppliedTo R trace G i p k) : k ≤ G.length := by
  obtain ⟨m, -, hgap⟩ := h.wellFormed.nextAvailableIndex
  exact (hk.le m hgap).trans (FirstGap.le_length hgap h.subMap)

/-- Other participants may act and the agreed log may grow. -/
theorem ParticipantInv.mono (h : ParticipantInv R trace G i p)
    (events : List (Event ι ε)) (hevents : ∀ j value, .applied i j value ∉ events)
    (rest : List PaxosLogEntry) :
    ParticipantInv R (trace ++ events) (G ++ rest) i p := by
  obtain ⟨k, hk⟩ := h.progress
  have hle := h.le_length hk
  constructor
  · exact h.wellFormed
  · exact h.callbacks
  · intro j entry hentry
    have hget := h.subMap j entry hentry
    rw [List.getElem?_append_left (List.getElem?_eq_some_iff.mp hget).1]
    exact hget
  · refine ⟨k, hk.store.append hle rest, hk.le, ?_, ?_, ?_⟩
    · intro hne
      obtain ⟨hgap, hregistered⟩ := hk.current hne
      exact ⟨hgap, hregistered.append hle rest⟩
    · intro j value hmem
      rcases List.mem_append.mp hmem with hmem | hmem
      · obtain ⟨hlt, happlied⟩ := hk.applied j value hmem
        exact ⟨hlt, happlied.append (by omega) rest⟩
      · exact absurd hmem (hevents j value)
    · apply List.pairwise_append.mpr
      refine ⟨hk.inOrder, ?_, ?_⟩
      · apply List.pairwise_of_forall_mem_list
        intro x hx y hy j value j' value' heq
        subst heq
        exact absurd hx (hevents j value)
      · intro x hx y hy j value j' value' heq heq'
        subst heq'
        exact absurd hy (hevents j' value')
  · exact h.safe
  · intro task htask
    obtain ⟨i', endpointId, hmem⟩ := h.tasks task htask
    exact ⟨i', endpointId, List.mem_append_left _ hmem⟩

theorem ParticipantInv.extend (h : ParticipantInv R trace G i p)
    (events : List (Event ι ε)) (hevents : ∀ j value, .applied i j value ∉ events) :
    ParticipantInv R (trace ++ events) G i p := by
  have hmono := h.mono events hevents []
  rw [List.append_nil] at hmono
  exact hmono

/-- A step of the participant that leaves its log and its id map alone. -/
theorem ParticipantInv.update (h : ParticipantInv R trace G i p) {p' : TabletParticipant ε}
    (hpaxosLog : p'.paxosLog = p.paxosLog) (hmap : p'.requestIdMap = p.requestIdMap)
    (hstore : ∀ k, StoreAt R G k p.kvstore → StoreAt R G k p'.kvstore)
    (hlive : p.exception = none) (hexception : p'.exception ≠ some pastError)
    (htasks : ∀ task ∈ p'.asyncQueue, ∃ i' endpointId,
      .requested i' endpointId task.message ∈ trace) :
    ParticipantInv R trace G i p' := by
  obtain ⟨k, hk⟩ := h.progress
  constructor
  · rw [hpaxosLog]
    exact h.wellFormed
  · rw [hpaxosLog]
    exact h.callbacks
  · rw [hpaxosLog]
    exact h.subMap
  · refine ⟨k, hstore k hk.store, ?_, ?_, hk.applied, hk.inOrder⟩
    · rw [hpaxosLog]
      exact hk.le
    · intro _
      rw [hpaxosLog, hmap]
      exact hk.current (by simp [hlive])
  · intro heq
    exact absurd heq hexception
  · exact htasks

theorem new_inv (hR : Coupling R) (i : ι) :
    ParticipantInv R ([] : List (Event ι ε)) [] i ClientRequestHandler.new := by
  constructor
  · exact PaxosLog.register_wellFormed registrations
  · rfl
  · intro j entry hentry
    rw [new_paxosLog, PaxosLog.register_log] at hentry
    cases hentry
  · refine ⟨0, ⟨.empty, rfl, hR.empty⟩, ?_, ?_, by simp, .nil⟩
    · intro m _
      exact Nat.zero_le m
    · intro _
      refine ⟨⟨?_, ?_⟩, registered_zero []⟩
      · rw [new_paxosLog, PaxosLog.register_log]
        rfl
      · intro j hj
        omega
  · intro heq
    cases heq
  · intro task htask
    cases htask

/-- An entry of the agreed log is set: the calls cover the indices up to the new gap. -/
theorem ParticipantInv.setEntry (h : ParticipantInv R trace G i p) {index : ℕ}
    {entry : PaxosLogEntry} (hentry : G[index]? = some entry) (hindex : index < 2 ^ 64 - 1)
    {k : ℕ} (hgap : p.paxosLog.log.FirstGap k) :
    ∃ l' m', p.paxosLog.setEntry index entry = .ok (l', l'.callsBetween k m') ∧
      l'.WellFormed ∧ l'.callbacks = (PaxosLog.register registrations).callbacks ∧
      (∀ j e, l'.log j = some e → G[j]? = some e) ∧ l'.log.FirstGap m' ∧ k ≤ m' := by
  obtain ⟨l', calls, hset, hspec⟩ := h.wellFormed.setEntry hindex entry
  obtain ⟨m', -, hgap'⟩ := hspec.wellFormed.nextAvailableIndex
  have hsub : l'.log.SubMap fun j => G[j]? := by
    rw [hspec.log]
    exact KeyMap.SubMap.insert h.subMap hentry
  have hle : k ≤ m' := by
    apply hgap.le_of_subMap hgap'
    rw [hspec.log]
    exact KeyMap.subMap_insert _ _ _
  rw [hspec.calls k m' hgap hgap'] at hset
  exact ⟨l', m', hset, hspec.wellFormed, hspec.callbacks.trans h.callbacks, hsub, hgap', hle⟩

/-- The calls up to the first gap of the log take a participant further. -/
theorem AppliedTo.between {k m' k' : ℕ} {q p' : TabletParticipant ε}
    {events : List (Event ι ε)} (hk : AppliedTo R trace G i p k)
    (hbetween : AppliedBetween R G i k m' q events p' k')
    (hdefined : p'.exception ≠ some undefinedRead) (hgap : p'.paxosLog.log.FirstGap m') :
    AppliedTo R (trace ++ events) G i p' k' := by
  have hle := hbetween.le
  constructor
  · exact hbetween.progress.store
  · intro m hm
    rw [hm.unique hgap]
    exact hbetween.progress.le
  · intro hne
    rcases hbetween.progress.outcome with ⟨-, rfl, hregistered⟩ |
      ⟨exception, hstopped, ⟨rfl, -⟩ | rfl⟩
    · exact ⟨hgap, hregistered⟩
    · exact absurd hstopped hne
    · exact absurd hstopped hdefined
  · intro j value hmem
    rcases List.mem_append.mp hmem with hold | hnew
    · obtain ⟨hlt, happlied⟩ := hk.applied j value hold
      exact ⟨by omega, happlied⟩
    · obtain ⟨j', value', -, hlt, heq, happlied⟩ := hbetween.events _ hnew
      cases heq
      exact ⟨hlt, happlied⟩
  · refine List.pairwise_append.mpr ⟨hk.inOrder, hbetween.inOrder, ?_⟩
    intro x hx y hy j value j' value' heq heq'
    subst heq heq'
    have hlt := (hk.applied j value hx).1
    obtain ⟨j'', value'', hge, -, heq, -⟩ := hbetween.events _ hy
    cases heq
    omega

/-- A live participant learns an entry of the agreed log. -/
theorem ParticipantInv.learn (h : ParticipantInv R trace G i p) (hR : Coupling R)
    (hlegal : Legal G) (hlive : p.exception = none) {index : ℕ} {entry : PaxosLogEntry}
    (hentry : G[index]? = some entry) (hindex : index < 2 ^ 64 - 1) :
    (∀ e ∈ (learn i p index entry).1, ∃ j value, e = .applied i j value) ∧
      ParticipantInv R (trace ++ (learn i p index entry).1) G i
        (learn i p index entry).2 := by
  obtain ⟨k, hk⟩ := h.progress
  obtain ⟨hgap, hregistered⟩ := hk.current (by simp [hlive])
  obtain ⟨l', m', hset, hwf, hcallbacks, hsub, hgap', hle⟩ := h.setEntry hentry hindex hgap
  obtain ⟨events, p', k', happly, hbetween⟩ :=
    applyCalls_callsBetween hR hlegal i hcallbacks (m' - k) (k := k)
      (p := { p with paxosLog := l' }) hlive hk.store hregistered (by
        intro j hj hj'
        obtain ⟨e, he⟩ := Option.isSome_iff_exists.mp (hgap'.below j (by omega))
        exact ⟨e, he, hsub j e he⟩)
  have hlast : k + (m' - k) = m' := by omega
  rw [hlast] at happly hbetween
  by_cases hundefined : p'.exception = some undefinedRead
  · have hlearn : Tablet.learn i p index entry =
        ([], { p with exception := some undefinedRead }) := by
      simp only [Tablet.learn, hset, happly, if_pos hundefined]
    have hpast : some undefinedRead ≠ some pastError := by decide
    rw [hlearn, List.append_nil]
    exact ⟨by simp, h.update rfl rfl (fun k hk => hk) hlive hpast h.tasks⟩
  have hlearn : Tablet.learn i p index entry = (events, p') := by
    simp only [Tablet.learn, hset, happly, if_neg hundefined]
  have hpaxosLog : p'.paxosLog = l' := hbetween.paxosLog
  rw [hlearn]
  refine ⟨?_, ?_⟩
  · intro e he
    obtain ⟨j, value, -, -, heq, -⟩ := hbetween.events e he
    exact ⟨j, value, heq⟩
  · constructor
    · rw [hpaxosLog]
      exact hwf
    · rw [hpaxosLog]
      exact hcallbacks
    · rw [hpaxosLog]
      exact hsub
    · rw [← hpaxosLog] at hgap'
      exact ⟨k', hk.between hbetween hundefined hgap'⟩
    · intro hpast
      rcases hbetween.progress.outcome with ⟨hnone, -⟩ | ⟨exception, hstopped, hstops⟩
      · rw [hnone] at hpast
        cases hpast
      · rcases hstops with ⟨-, hdiffer⟩ | rfl
        · exact hdiffer
        · exact absurd hstopped hundefined
    · intro task htask
      rw [hbetween.asyncQueue] at htask
      obtain ⟨i', endpointId, hmem⟩ := h.tasks task htask
      exact ⟨i', endpointId, List.mem_append_left _ hmem⟩

/-! ## All participants -/

/-- The entry was built for a request. -/
def Requested (trace : List (Event ι ε)) (entry : PaxosLogEntry) : Prop :=
  ∃ i endpointId message, .requested i endpointId message ∈ trace ∧
    logEntry message = .ok entry

/-- What is checked before a proposal against the entries before it: the store takes the
entry, and its request id is new. -/
structure Admissible (before : List PaxosLogEntry) (entry : PaxosLogEntry) : Prop where
  legal : ∀ store, replay before = .ok store → ∃ store', replayEntry store entry = .ok store'
  fresh : ∀ id, requestId entry = some id → ∀ e ∈ before, requestId e ≠ some id

/-- What a response says of the agreed log. -/
def Answered (G : List PaxosLogEntry) (message : ClientRequest) (response : ClientResponse) :
    Option ℕ → Prop
  | none => response = ⟨none, .ERROR⟩
  | some j => ∃ entry, G[j]? = some entry ∧ requestId entry = some message.requestId ∧
      ((message.requestType = .WRITE ∧ response = ⟨none, .SUCCESS⟩) ∨
        (message.requestType = .READ ∧ ∃ k store, j < k ∧ k ≤ G.length ∧
          replay (G.take k) = .ok store ∧
          response = readResponse (readLogged store entry.getRead).1))

structure Inv (R : KVStore → KVStore → Prop) (trace : List (Event ι ε)) (s : State ι ε) :
    Prop where
  participants : ∀ i, ParticipantInv R trace s.agreedLog.entries i (s.participants i)
  pinned : AgreedLog.Pinned Admissible s.agreedLog
  proposals : ∀ index entry, (index, entry) ∈ s.agreedLog.proposals → Requested trace entry
  entries : ∀ (index : ℕ) entry, s.agreedLog.entries[index]? = some entry →
    Requested trace entry
  length : s.agreedLog.entries.length ≤ 2 ^ 64 - 1
  responded : ∀ i endpointId message entryIndex response,
    .responded i endpointId message entryIndex response ∈ trace →
      (∃ i' endpointId', .requested i' endpointId' message ∈ trace) ∧
        Answered s.agreedLog.entries message response entryIndex

theorem Requested.append {entry : PaxosLogEntry} (h : Requested trace entry)
    (events : List (Event ι ε)) : Requested (trace ++ events) entry := by
  obtain ⟨i, endpointId, message, hmem, hentry⟩ := h
  exact ⟨i, endpointId, message, List.mem_append_left _ hmem, hentry⟩

theorem Answered.append {message : ClientRequest} {response : ClientResponse}
    {entryIndex : Option ℕ} (h : Answered G message response entryIndex)
    (rest : List PaxosLogEntry) : Answered (G ++ rest) message response entryIndex := by
  cases entryIndex with
  | none => exact h
  | some j =>
      obtain ⟨entry, hentry, hid, hresponse⟩ := h
      refine ⟨entry, ?_, hid, ?_⟩
      · rw [List.getElem?_append_left (List.getElem?_eq_some_iff.mp hentry).1]
        exact hentry
      · rcases hresponse with hwrite | ⟨htype, k, store, hjk, hk, hreplay, hvalue⟩
        · exact .inl hwrite
        · refine .inr ⟨htype, k, store, hjk, ?_, ?_, hvalue⟩
          · rw [List.length_append]
            omega
          · rw [List.take_append_of_le_length hk]
            exact hreplay

theorem legal_of_pinned {L : AgreedLog PaxosLogEntry} (h : AgreedLog.Pinned Admissible L) :
    Legal L.entries := by
  intro k
  induction k with
  | zero => exact ⟨.empty, rfl⟩
  | succ k ih =>
      obtain ⟨store, hstore⟩ := ih
      cases hentry : L.entries[k]? with
      | none =>
          rw [List.getElem?_eq_none_iff] at hentry
          rw [List.take_of_length_le hentry] at hstore
          rw [List.take_of_length_le (by omega)]
          exact ⟨store, hstore⟩
      | some entry =>
          obtain ⟨store', hstore'⟩ := (h.entries k entry hentry).legal store hstore
          refine ⟨store', ?_⟩
          rw [take_succ_of_getElem? hentry, replay_concat hstore]
          exact hstore'

theorem initial_inv (hR : Coupling R) : Inv R [] (State.initial : State ι ε) := by
  constructor
  · exact fun i => new_inv hR i
  · exact AgreedLog.pinned_empty
  all_goals simp [State.initial, AgreedLog.empty]

/-- A write that passes the check of the proposer is legal in the replayed log, whose last
access timestamps are not ahead. -/
theorem legal_of_check (hR : Coupling R) {store : KVStore} (hcoupled : R store p.kvstore)
    {message : ClientRequest} (hcheck : illegalWrite p.kvstore message = false)
    {entry : PaxosLogEntry} (hentry : logEntry message = .ok entry) :
    ∃ store', replayEntry store entry = .ok store' := by
  cases htype : message.requestType with
  | UNSET =>
      simp only [logEntry, htype, universalTerminate] at hentry
      cases hentry
  | READ =>
      simp only [logEntry, htype] at hentry
      cases hentry
      exact ⟨_, rfl⟩
  | WRITE =>
      simp only [logEntry, htype] at hentry
      cases hentry
      apply KVStore.write_ok_of_readLat
      intro lat hlat
      obtain ⟨lat', hlat', hle⟩ := (hR.ahead hcoupled).readLat hlat
      simp only [StringValue.value_some] at hlat'
      simp only [illegalWrite, htype, hlat', decide_eq_false_iff_not, not_le] at hcheck
      simp only [UInt64Value.value_some]
      omega

theorem requestId_logEntry {message : ClientRequest} {entry : PaxosLogEntry}
    (h : logEntry message = .ok entry) : requestId entry = some message.requestId := by
  cases htype : message.requestType <;> simp only [logEntry, htype, universalTerminate] at h <;>
    cases h <;> rfl

/-- A proposal is admissible at the index it is made for. -/
theorem ParticipantInv.admissible (h : ParticipantInv R trace G i p) (hR : Coupling R)
    (hlive : p.exception = none) {message : ClientRequest}
    (hid : p.requestIdMap message.requestId = none)
    (hcheck : illegalWrite p.kvstore message = false) {entry : PaxosLogEntry}
    (hentry : logEntry message = .ok entry) {index : ℕ}
    (hindex : p.paxosLog.nextAvailableIndex = .ok index) :
    index ≤ G.length ∧ Admissible (G.take index) entry := by
  obtain ⟨k, hk⟩ := h.progress
  have hgap := h.wellFormed.nextAvailableIndex_eq.mp hindex
  obtain ⟨hgapk, hregistered⟩ := hk.current (by simp [hlive])
  obtain rfl := hgapk.unique hgap
  refine ⟨h.le_length hk, ?_, ?_⟩
  · intro store hstore
    obtain ⟨store', hreplay, hcoupled⟩ := hk.store
    rw [hstore] at hreplay
    cases hreplay
    exact legal_of_check hR hcoupled hcheck hentry
  · intro id hid' e he hide
    rw [requestId_logEntry hentry] at hid'
    cases hid'
    obtain ⟨j, hj, rfl⟩ := List.mem_iff_getElem.mp he
    rw [List.length_take] at hj
    rw [List.getElem_take] at hide
    have hsome := hregistered.complete j (by omega) _ _
      (List.getElem?_eq_getElem (by omega)) hide
    rw [hid] at hsome
    cases hsome

end UniversalDB.Tablet
