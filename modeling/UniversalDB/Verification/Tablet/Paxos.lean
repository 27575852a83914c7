import UniversalDB.Verification.Tablet.RealTime
import UniversalDB.Verification.Tablet.Responses
import UniversalDB.Verification.Tablet.Service

/-! # The participants of a tablet on their Paxos group

What holds over a log that the participants agree on holds on the nodes of their group, in
every run in which the loop over the promises picks the greatest vote. -/

namespace UniversalDB.Tablet

open Service

variable {n : ℕ} {ε : Type} {trace : List (Service.Event n (Event (Fin n) ε))}
  {s : Service.State n (TabletParticipant ε)}

/-! ## A sample run

A participant of three proposes a write of its client, and answers when the group has learned
it. -/

def paxosRun (p : Fin n) : List (Service.Action n (LocalAction Unit)) :=
  [.act p 0 (.request () sampleWrite), .act p 2 .run, .deliver 1, .deliver 1, .deliver 1,
    .deliver 1, .deliver 2, .deliver 2, .deliver 3, .deliver 5, .deliver 3, .deliver 4,
    .act p 0 .run]

/-! ## Refinement -/

/-- The participants of a tablet on a Paxos group do what the participants over an agreed
log do, this log holds what the group has learned, and no handler of the group throws. -/
theorem tablet_on_paxos_group
    (h : ((service (Fin n) ε).restricted Group.LastIsGreatest).Run trace s) :
    ∃ t, (machine (Fin n) ε).system.Run (trace.filterMap serviceView) t ∧
      (∀ i, t.participants i = (s.members i).state ∧ (s.members i).exception = none) ∧
      ∀ index e, t.agreedLog.entries[index]? = some e ↔
        Group.LearnedAt (trace.filterMap paxosView) index e := by
  obtain ⟨g, t, -, ht, hR⟩ := simulated_of_run h
  exact ⟨agreedState t, run_agreed ht, fun i => ⟨hR.participants i, hR.running i⟩,
    hR.agreed.entries⟩

theorem tablet_on_paxos_group_sample :
    ∃ (trace : List (Service.Event 3 (Event (Fin 3) Unit)))
      (t : State (Fin 3) Unit),
      .responded 1 () sampleWrite (some 0) ⟨none, .SUCCESS⟩ ∈ trace.filterMap serviceView ∧
        (machine (Fin 3) Unit).system.Run (trace.filterMap serviceView) t := by
  obtain ⟨trace, s, hrun, hresponded⟩ :=
    ((service (Fin 3) Unit).machine.restrict fun s a =>
      ∀ promises ∈ (service (Fin 3) Unit).completed s a, Group.LastIsGreatest promises).exists_run
      (paxosRun 1) (p := fun r => .responded 1 () sampleWrite (some 0) ⟨none, .SUCCESS⟩ ∈
        r.1.filterMap serviceView) (by decide +kernel)
  have hrestricted : ((service (Fin 3) Unit).restricted Group.LastIsGreatest).Run trace s :=
    Machine.guarded_of_restrict hrun
  obtain ⟨t, ht, -⟩ := tablet_on_paxos_group hrestricted
  exact ⟨trace, t, hresponded, ht⟩

/-! ## Answered requests -/

/-- The entry of an answered request is at one index of the log of the group, for ever. -/
structure Durable (trace : List (Service.Event n (Event (Fin n) ε)))
    (s : Service.State n (TabletParticipant ε)) (message : ClientRequest) (index : ℕ) : Prop where
  accepted : ∃ entry vrnd, requestId entry = some message.requestId ∧
    Group.AcceptedByMajority (trace.filterMap paxosView) index vrnd entry ∧
    ∀ i entry', (s.members i).state.paxosLog.getEntry index = some entry' → entry' = entry
  once : ∀ i index' entry, (s.members i).state.paxosLog.getEntry index' = some entry →
    requestId entry = some message.requestId → index' = index

/-- When a client has been told of a success, a majority of the nodes has accepted the entry
of its request at an index where no participant ever has another entry, and none has the
request at another index. -/
theorem answered_durable
    (h : ((service (Fin n) ε).restricted Group.LastIsGreatest).Run trace s) {i : Fin n}
    {endpointId : ε} {message : ClientRequest} {entryIndex : Option ℕ}
    {response : ClientResponse}
    (hresponded : .service (.responded i endpointId message entryIndex response) ∈ trace)
    (hsuccess : response.errorCode = .SUCCESS) :
    ∃ index, entryIndex = some index ∧ Durable trace s message index := by
  obtain ⟨g, t, hg, ht, hR⟩ := simulated_of_run h
  have hinv := ahead_of_run (run_agreed ht)
  have hmem : .responded i endpointId message entryIndex response ∈
      trace.filterMap serviceView := List.mem_filterMap.mpr ⟨_, hresponded, rfl⟩
  have hlog : ∀ i' index entry, (s.members i').state.paxosLog.getEntry index = some entry →
      t.agreedLog.entries[index]? = some entry := by
    intro i' index entry hentry
    rw [← hR.participants] at hentry
    exact (hinv.participants i').subMap index entry hentry
  obtain ⟨-, hanswered⟩ := hinv.responded _ _ _ _ _ hmem
  cases entryIndex with
  | none =>
      rw [hanswered] at hsuccess
      cases hsuccess
  | some index =>
      obtain ⟨entry, hentry, hid, -⟩ := hanswered
      have hlearned := (hR.agreed.entries index entry).mp hentry
      obtain ⟨vrnd, haccepted⟩ := hlearned.accepted (Group.run_of_restricted hg)
      refine ⟨index, rfl, ⟨entry, vrnd, hid, haccepted, ?_⟩, ?_⟩
      · intro i' entry' hentry'
        have hsame := hlog i' index entry' hentry'
        rw [hentry] at hsame
        exact (Option.some.inj hsame).symm
      · intro i' index' entry' hentry' hid'
        apply SameRequest.eq hinv.pinned
        exact ⟨entry', entry, _, hlog i' index' entry' hentry', hentry, hid', hid⟩

theorem answered_durable_sample :
    ∃ (trace : List (Service.Event 3 (Event (Fin 3) Unit)))
      (s : Service.State 3 (TabletParticipant Unit)),
      ((service (Fin 3) Unit).restricted Group.LastIsGreatest).Run trace s ∧
        ∃ index, Durable trace s sampleWrite index := by
  obtain ⟨trace, s, hrun, hresponded⟩ :=
    ((service (Fin 3) Unit).machine.restrict fun s a =>
      ∀ promises ∈ (service (Fin 3) Unit).completed s a, Group.LastIsGreatest promises).exists_run
      (paxosRun 1) (p := fun r =>
        .service (.responded 1 () sampleWrite (some 0) ⟨none, .SUCCESS⟩) ∈ r.1)
      (by decide +kernel)
  have hrestricted : ((service (Fin 3) Unit).restricted Group.LastIsGreatest).Run trace s :=
    Machine.guarded_of_restrict hrun
  obtain ⟨index, -, hdurable⟩ := answered_durable hrestricted hresponded rfl
  exact ⟨trace, s, hrestricted, index, hdurable⟩

/-! ## Requests one after the other -/

/-- A request that is made for the first time after another one has been answered through
the log has its entry behind the entry of that one, on the log of every participant. -/
theorem ordered_in_real_time
    (h : ((service (Fin n) ε).restricted Group.LastIsGreatest).Run trace s)
    {before after : List (Service.Event n (Event (Fin n) ε))} {i : Fin n} {endpointId : ε}
    {message : ClientRequest}
    (htrace : trace = before ++ .service (.requested i endpointId message) :: after)
    (hnew : NewId (before.filterMap serviceView) message.requestId) {i' : Fin n}
    {endpointId' : ε} {message' : ClientRequest} {index : ℕ} {response : ClientResponse}
    (hresponded : .service (.responded i' endpointId' message' (some index) response) ∈ before)
    {j : Fin n} {index' : ℕ} {entry : PaxosLogEntry}
    (hentry : (s.members j).state.paxosLog.getEntry index' = some entry)
    (hid : requestId entry = some message.requestId) : index < index' := by
  obtain ⟨g, t, hg, ht, hR⟩ := simulated_of_run h
  have hrun := run_agreed ht
  have hview : trace.filterMap serviceView = before.filterMap serviceView ++
      .requested i endpointId message :: after.filterMap serviceView := by
    rw [htrace, List.filterMap_append]
    rfl
  have hmem : .responded i' endpointId' message' (some index) response ∈
      before.filterMap serviceView := List.mem_filterMap.mpr ⟨_, hresponded, rfl⟩
  rw [← hR.participants] at hentry
  have hagreed := ((ahead_of_run hrun).participants j).subMap index' entry hentry
  exact inRealTime_of_run hrun _ i endpointId message _ hview hnew i' endpointId' message' index
    response hmem index' entry hagreed hid

/-- After the write of `paxosRun` has been answered, its client reads through another
participant. -/
def paxosRuns (p q : Fin n) : List (Service.Action n (LocalAction Unit)) :=
  [.act p 0 (.request () sampleWrite), .act p 2 .run] ++ List.replicate 18 (.deliver 0) ++
    [.act p 0 .run, .act q 0 (.request () sampleRead), .act q 2 .run] ++
      List.replicate 18 (.deliver 0)

theorem newId_of_requests {ι : Type} {before : List (Event ι ε)} {id : String}
    (h : ∀ message ∈ requests before, message.requestId ≠ id) : NewId before id :=
  fun _ _ message hmem => h message (mem_requests hmem)

theorem ordered_in_real_time_sample :
    ∃ (before after : List (Service.Event 3 (Event (Fin 3) Unit)))
      (s : Service.State 3 (TabletParticipant Unit)) (index index' : ℕ),
      ((service (Fin 3) Unit).restricted Group.LastIsGreatest).Run
        (before ++ .service (.requested 2 () sampleRead) :: after) s ∧
      .service (.responded 1 () sampleWrite (some index) ⟨none, .SUCCESS⟩) ∈ before ∧
      (s.members 0).state.paxosLog.getEntry index' = some (.read ⟨some "r", some "k", some 10⟩) ∧
      index < index' := by
  obtain ⟨trace, s, hrun, hrequested, hnew, hresponded, hentry⟩ :=
    ((service (Fin 3) Unit).machine.restrict fun s a =>
      ∀ promises ∈ (service (Fin 3) Unit).completed s a, Group.LastIsGreatest promises).exists_run
      (paxosRuns 1 2) (p := fun r =>
        r.1[17]? = some (.service (.requested 2 () sampleRead)) ∧
        (∀ message ∈ requests ((r.1.take 17).filterMap serviceView), message.requestId ≠ "r") ∧
        .service (.responded 1 () sampleWrite (some 0) ⟨none, .SUCCESS⟩) ∈ r.1.take 17 ∧
        (r.2.members 0).state.paxosLog.getEntry 1 =
          some (.read ⟨some "r", some "k", some 10⟩))
      (by decide +kernel)
  have hrestricted : ((service (Fin 3) Unit).restricted Group.LastIsGreatest).Run trace s :=
    Machine.guarded_of_restrict hrun
  have htrace : trace = trace.take 17 ++
      .service (.requested 2 () sampleRead) :: trace.drop 18 := by
    obtain ⟨hlt, hget⟩ := List.getElem?_eq_some_iff.mp hrequested
    rw [← hget, List.getElem_cons_drop, List.take_append_drop]
  refine ⟨trace.take 17, trace.drop 18, s, 0, 1, htrace ▸ hrestricted, hresponded, hentry, ?_⟩
  exact ordered_in_real_time hrestricted htrace (newId_of_requests hnew) hresponded hentry rfl

end UniversalDB.Tablet
