import UniversalDB.Verification.Group.Steps

/-! # Answers of a log syncer that arrive late

A request and its answer are delayed like all messages, so both logs may have grown when
the answer is handled. -/

namespace UniversalDB.Group

open SinglePaxosHandler MultiPaxosHandler

variable {n : ℕ}

/-! ## The history of answers -/

/-- An answer of a node, with its next available index when it answered. -/
structure Answer (n : ℕ) where
  responder : Fin n
  requester : Fin n
  nextAvailableIndex : ℕ
  response : SyncResponse

/-- What an action answers. -/
def answered (s : State n) : Action n → List (Answer n)
  | .deliver position =>
      match s.network[position]? with
      | some ⟨src, dst, .syncRequest request⟩ =>
          let paxosLog := (s.nodes dst).paxosLog
          match paxosLog.nextAvailableIndex, LogSyncer.buildSyncResponse paxosLog request with
          | .ok index, .ok response => [⟨dst, src, index, response⟩]
          | _, _ => []
      | _ => []
  | _ => []

/-- The group with the history of the answers. -/
def answeringMachine (n : ℕ) : Machine (State n) (Action n) (Answer n) where
  init := State.initial n
  next s a := (next s a).map fun result => (answered s a, result.2)

/-- A sync request can be built: its node has fewer than `2 ^ 31` available indices. -/
def CanBuild (s : State n) : Action n → Prop
  | .sync i => (s.nodes i).paxosLog.getAvailableIndices.length < 2 ^ 31
  | _ => True

instance (s : State n) (a : Action n) : Decidable (CanBuild s a) := by
  cases a <;> unfold CanBuild <;> infer_instance

theorem reachable_of_answering {history : List (Answer n)} {s : State n}
    (h : (answeringMachine n).system.Run history s) : Reachable s := by
  induction h with
  | start hs =>
      cases hs
      exact ⟨[], .start rfl⟩
  | step _ hs ih =>
      obtain ⟨a, -, hnext⟩ := hs
      obtain ⟨result, hmachine, hresult⟩ := Option.map_eq_some_iff.mp hnext
      cases hresult
      exact ih.step hmachine

/-! ## Requests and answers on their way -/

/-- The request was built from a log that has only grown since. -/
def Asked (paxosLog : PaxosLog Empty) (request : SyncRequest) : Prop :=
  ∃ asked : PaxosLog Empty, asked.WellFormed ∧ asked.log.SubMap paxosLog.log ∧
    request = LogSyncer.encode asked.availableIndices

/-- The answer was built from such a request and from a log that has only grown since. -/
def Answered (requester responder : PaxosLog Empty) (index : ℕ) (response : SyncResponse) :
    Prop :=
  ∃ request, Asked requester request ∧ ∃ answering : PaxosLog Empty,
    answering.WellFormed ∧ answering.log.SubMap responder.log ∧
      answering.log.FirstGap index ∧ (∀ i, (answering.log i).isSome → i < 2 ^ 32) ∧
      LogSyncer.buildSyncResponse answering request = .ok response

theorem Asked.grow {l l' : PaxosLog Empty} {request : SyncRequest} (h : Asked l request)
    (hsub : l.log.SubMap l'.log) : Asked l' request := by
  obtain ⟨asked, hwf, hasked, hrequest⟩ := h
  exact ⟨asked, hwf, fun i e he => hsub i e (hasked i e he), hrequest⟩

theorem Answered.grow {l l' r r' : PaxosLog Empty} {index : ℕ} {response : SyncResponse}
    (h : Answered l r index response) (hl : l.log.SubMap l'.log) (hr : r.log.SubMap r'.log) :
    Answered l' r' index response := by
  obtain ⟨request, hasked, answering, hwf, hsub, hrest⟩ := h
  exact ⟨request, hasked.grow hl, answering, hwf, fun i e he => hr i e (hsub i e he), hrest⟩

structure SyncInv (history : List (Answer n)) (s : State n) : Prop where
  request : ∀ src dst request, ⟨src, dst, .syncRequest request⟩ ∈ s.network →
    Asked (s.nodes src).paxosLog request
  response : ∀ src dst response, ⟨src, dst, .syncResponse response⟩ ∈ s.network →
    ∃ index, ⟨src, dst, index, response⟩ ∈ history ∧
      Answered (s.nodes dst).paxosLog (s.nodes src).paxosLog index response

/-- A step that sends only requests and answers that are as they should be. -/
theorem SyncInv.extend {history events : List (Answer n)} {s s' : State n}
    (h : SyncInv history s)
    (hgrow : ∀ i, (s.nodes i).paxosLog.log.SubMap (s'.nodes i).paxosLog.log)
    (hrequest : ∀ src dst request, ⟨src, dst, .syncRequest request⟩ ∈ s'.network →
      ⟨src, dst, .syncRequest request⟩ ∈ s.network ∨ Asked (s'.nodes src).paxosLog request)
    (hresponse : ∀ src dst response, ⟨src, dst, .syncResponse response⟩ ∈ s'.network →
      ⟨src, dst, .syncResponse response⟩ ∈ s.network ∨
        ∃ index, ⟨src, dst, index, response⟩ ∈ events ∧
          Answered (s'.nodes dst).paxosLog (s'.nodes src).paxosLog index response) :
    SyncInv (history ++ events) s' := by
  constructor
  · intro src dst request hmem
    rcases hrequest src dst request hmem with hold | hnew
    · exact (h.request src dst request hold).grow (hgrow src)
    · exact hnew
  · intro src dst response hmem
    rcases hresponse src dst response hmem with hold | ⟨index, hevent, hanswered⟩
    · obtain ⟨index, hevent, hanswered⟩ := h.response src dst response hold
      exact ⟨index, List.mem_append_left _ hevent, hanswered.grow (hgrow dst) (hgrow src)⟩
    · exact ⟨index, List.mem_append_right _ hevent, hanswered⟩

theorem syncRequest_not_outgoing {src dst : Fin n} {request : SyncRequest} {self : Fin n}
    {effects : List (Effect (Fin n))} :
    ⟨src, dst, .syncRequest request⟩ ∉ effects.flatMap (outgoing self) := by
  intro hmem
  obtain ⟨effect, -, hout⟩ := List.mem_flatMap.mp hmem
  cases effect with
  | broadcast endpoints message =>
      obtain ⟨d, -, heq⟩ := List.mem_map.mp hout
      cases heq
  | send d message => cases List.mem_singleton.mp hout
  | setEntry index entry => cases hout

theorem SyncInv.step {history : List (Answer n)} {s s' : State n} (h : SyncInv history s)
    (hs : Reachable s) {a : Action n} {events : List (Event n)} (hmove : Move s a events s') :
    SyncInv (history ++ answered s a) s' := by
  have hgrow := hs.subMap_of_move hmove
  cases hmove with
  | lose hpacket =>
      refine h.extend hgrow ?_ ?_
      · exact fun _ _ _ hmem => .inl (List.mem_of_mem_eraseIdx hmem)
      · exact fun _ _ _ hmem => .inl (List.mem_of_mem_eraseIdx hmem)
  | sync self =>
      refine h.extend hgrow ?_ ?_
      · intro src dst request hmem
        rcases List.mem_append.mp hmem with hold | hnew
        · exact .inl hold
        · obtain ⟨request', hrequest, d, heq⟩ := mem_sync.mp hnew
          cases heq
          exact .inr ⟨_, hs.wellFormed self, .refl _, hs.encode_of_requestFor hrequest⟩
      · intro src dst response hmem
        rcases List.mem_append.mp hmem with hold | hnew
        · exact .inl hold
        · obtain ⟨request', -, d, heq⟩ := mem_sync.mp hnew
          cases heq
  | @stop a self exception network hnet =>
      have hkept : ∀ packet ∈ network, packet ∈ s.network := by
        intro packet hmem
        rcases hnet with rfl | ⟨position, packet', -, rfl⟩
        · exact hmem
        · exact List.mem_of_mem_eraseIdx hmem
      refine h.extend hgrow ?_ ?_
      · exact fun _ _ _ hmem => .inl (hkept _ hmem)
      · exact fun _ _ _ hmem => .inl (hkept _ hmem)
  | propose hindex hlt hcall =>
      refine h.extend hgrow ?_ ?_
      · intro src dst request hmem
        rcases List.mem_append.mp hmem with hold | hnew
        · exact .inl hold
        · exact absurd hnew syncRequest_not_outgoing
      · intro src dst response hmem
        rcases List.mem_append.mp hmem with hold | hnew
        · exact .inl hold
        · exact absurd hnew syncResponse_not_outgoing
  | paxos hpacket hcall hset =>
      refine h.extend hgrow ?_ ?_
      · intro src dst request hmem
        rcases List.mem_append.mp hmem with hold | hnew
        · exact .inl (List.mem_of_mem_eraseIdx hold)
        · exact absurd hnew syncRequest_not_outgoing
      · intro src dst response hmem
        rcases List.mem_append.mp hmem with hold | hnew
        · exact .inl (List.mem_of_mem_eraseIdx hold)
        · exact absurd hnew syncResponse_not_outgoing
  | @syncRequest position src dst request response hpacket hcall =>
      obtain ⟨index, hindex, hgap⟩ := (hs.wellFormed dst).nextAvailableIndex
      have hevents : answered s (.deliver position) = [⟨dst, src, index, response⟩] := by
        simp [answered, hpacket, hindex, hcall]
      rw [hevents]
      refine h.extend hgrow ?_ ?_
      · intro src' dst' request' hmem
        rcases List.mem_append.mp hmem with hold | hnew
        · exact .inl (List.mem_of_mem_eraseIdx hold)
        · cases List.mem_singleton.mp hnew
      · intro src' dst' response' hmem
        rcases List.mem_append.mp hmem with hold | hnew
        · exact .inl (List.mem_of_mem_eraseIdx hold)
        · cases List.mem_singleton.mp hnew
          have hasked := h.request src dst request (List.mem_of_getElem? hpacket)
          exact .inr ⟨index, List.mem_singleton_self _, request, hasked, (s.nodes dst).paxosLog,
            hs.wellFormed dst, .refl _, hgap, fun _ => hs.bounded dst, hcall⟩
  | syncResponse hpacket hcall =>
      refine h.extend hgrow ?_ ?_
      · exact fun _ _ _ hmem => .inl (List.mem_of_mem_eraseIdx hmem)
      · exact fun _ _ _ hmem => .inl (List.mem_of_mem_eraseIdx hmem)

theorem syncInv_of_run {history : List (Answer n)} {s : State n}
    (h : (answeringMachine n).system.Run history s) : SyncInv history s := by
  apply h.invariant
  · rintro s rfl
    constructor <;> simp [answeringMachine, State.initial]
  · rintro history s events s' hrun ih ⟨a, -, hnext⟩
    obtain ⟨result, hmachine, hresult⟩ := Option.map_eq_some_iff.mp hnext
    cases hresult
    exact ih.step (reachable_of_answering hrun) (move_of_next hmachine)

/-! ## The answer is handled -/

/-- What an answer brings to a log. -/
structure Installed (requester responder : PaxosLog Empty) (index : ℕ)
    (response : SyncResponse) (paxosLog : PaxosLog Empty) : Prop where
  /-- The log is not behind what the responder had when it answered. -/
  reached : ∃ m, paxosLog.nextAvailableIndex = .ok m ∧ index ≤ m
  /-- The requester keeps what it has, and changes nothing behind that. -/
  kept : ∀ i entry, requester.getEntry i = some entry → paxosLog.getEntry i = some entry
  behind : ∀ i, index ≤ i → paxosLog.getEntry i = requester.getEntry i
  /-- What is new is an entry of the responder. -/
  copied : ∀ i entry, paxosLog.getEntry i = some entry → requester.getEntry i = none →
    responder.getEntry i = some entry
  /-- A second copy of the answer changes nothing. -/
  again : ∃ paxosLog' calls, LogSyncer.handleSyncResponse paxosLog response =
    .ok (paxosLog', calls) ∧ ∀ i, paxosLog'.getEntry i = paxosLog.getEntry i

theorem Answered.installed {requester responder : PaxosLog Empty} {index : ℕ}
    {response : SyncResponse} (hwf : requester.WellFormed)
    (h : Answered requester responder index response) :
    ∃ paxosLog calls, LogSyncer.handleSyncResponse requester response = .ok (paxosLog, calls) ∧
      Installed requester responder index response paxosLog := by
  obtain ⟨request, ⟨asked, hasked, hsub, rfl⟩, answering, hanswering, hsub', hgap, hwidth,
    hresponse⟩ := h
  obtain ⟨paxosLog, calls, hset, hcaught⟩ := LogSyncer.handleSyncResponse_stale hasked hwf
    hsub hanswering hgap hwidth hresponse
  refine ⟨paxosLog, calls, hset, ?_, hcaught.subMap, hcaught.behind, ?_, ?_⟩
  · obtain ⟨m, hm, hgap'⟩ := hcaught.wellFormed.nextAvailableIndex
    refine ⟨m, hm, ?_⟩
    by_contra hlt
    have hsome := hcaught.reached m (by omega)
    rw [show paxosLog.getEntry m = none from hgap'.unset] at hsome
    cases hsome
  · intro i entry hentry hnone
    have hi := hcaught.entry i
    rw [hnone, hentry, Option.none_or] at hi
    split at hi
    · exact hsub' i entry hi.symm
    · cases hi
  · obtain ⟨paxosLog', calls', hset', hcaught'⟩ := LogSyncer.handleSyncResponse_stale hasked
      hcaught.wellFormed (fun i e he => hcaught.subMap i e (hsub i e he)) hanswering hgap hwidth
      hresponse
    refine ⟨paxosLog', calls', hset', ?_⟩
    intro i
    cases hentry : paxosLog.getEntry i with
    | some entry => exact hcaught'.subMap i entry hentry
    | none =>
        -- below the answered index nothing is missing any more
        have hge : index ≤ i := by
          by_contra hlt
          have hsome := hcaught.reached i (by omega)
          rw [hentry] at hsome
          cases hsome
        exact (hcaught'.behind i hge).trans hentry

/-- An answer that is handled at any later time brings the requester to where the responder
was when it answered, and does no harm to what has been learned since. -/
theorem late_answer_installed {history : List (Answer n)} {s : State n}
    (h : ((answeringMachine n).guarded CanBuild).Run history s) (src dst : Fin n)
    (response : SyncResponse) (hmem : ⟨src, dst, .syncResponse response⟩ ∈ s.network) :
    ∃ index paxosLog calls, ⟨src, dst, index, response⟩ ∈ history ∧
      LogSyncer.handleSyncResponse (s.nodes dst).paxosLog response = .ok (paxosLog, calls) ∧
      Installed (s.nodes dst).paxosLog (s.nodes src).paxosLog index response paxosLog := by
  have hrun := Machine.run_of_guarded h
  obtain ⟨index, hevent, hanswered⟩ := (syncInv_of_run hrun).response src dst response hmem
  have hwf := (reachable_of_answering hrun).wellFormed dst
  obtain ⟨paxosLog, calls, hset, hinstalled⟩ := hanswered.installed hwf
  exact ⟨index, paxosLog, calls, hevent, hset, hinstalled⟩

deriving instance DecidableEq for Payload, Packet

/-- Node 0 asks when all logs are empty and learns the entry before the answer comes. -/
theorem late_answer_installed_sample : ∃ (history : List (Answer 3)) (s : State 3),
    (s.nodes 0).paxosLog.getEntry 0 = some .reconfigFinished ∧
    ∃ index paxosLog calls, ⟨1, 0, index, ⟨[⟨0, .reconfigFinished⟩]⟩⟩ ∈ history ∧
      LogSyncer.handleSyncResponse (s.nodes 0).paxosLog ⟨[⟨0, .reconfigFinished⟩]⟩ =
        .ok (paxosLog, calls) ∧
      Installed (s.nodes 0).paxosLog (s.nodes 1).paxosLog index ⟨[⟨0, .reconfigFinished⟩]⟩
        paxosLog := by
  obtain ⟨history, s, hrun, hentry, hmem⟩ := ((answeringMachine 3).restrict CanBuild).exists_run
    [.sync 0, .propose 1 2 .reconfigFinished, .deliver 4, .deliver 4, .deliver 4, .deliver 4,
      .deliver 5, .deliver 5, .deliver 6, .deliver 8, .deliver 6, .deliver 7, .deliver 1,
      .deliver 4, .deliver 4]
    (p := fun r => (r.2.nodes 0).paxosLog.getEntry 0 = some .reconfigFinished ∧
      ⟨1, 0, .syncResponse ⟨[⟨0, .reconfigFinished⟩]⟩⟩ ∈ r.2.network) (by decide +kernel)
  exact ⟨history, s, hentry,
    late_answer_installed (Machine.guarded_of_restrict hrun) 1 0 _ hmem⟩

end UniversalDB.Group
