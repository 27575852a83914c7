import UniversalDB.Verification.Tablet.Steps

/-! # The task of a client request over its runs

Between two runs of a task the log may advance in any way, so every run finds a state of the
replica of its own. -/

namespace UniversalDB.ClientRequestHandler

variable {ε : Type}

/-! ## The states of a replica -/

/-- The log of a replica learns any entries in any order, below the greatest index. `stop`
is what an exception leaves. -/
inductive Replica : TabletParticipant ε → Prop where
  | new : Replica new
  | request {p} (h : Replica p) (endpointId : ε) (message : ClientRequest) :
      Replica (handleRequest p endpointId message)
  | learn {p index} (h : Replica p) (hindex : index < 2 ^ 64 - 1) (entry : PaxosLogEntry) :
      Replica (Tablet.learn () p index entry).2
  | run {p task rest result} (h : Replica p) (hqueue : p.asyncQueue = task :: rest)
      (hrun : runTask p task = .ok result) :
      Replica { p with
        kvstore := result.kvstore
        asyncQueue := Tablet.queueAfter task rest result.wait }
  | stop {p} (h : Replica p) (exception : UniversalException) :
      Replica { p with exception := some exception }

/-- The ids in the map are held for populated indices. -/
structure Sane (p : TabletParticipant ε) : Prop where
  wellFormed : p.paxosLog.WellFormed
  populated : ∀ id index, p.requestIdMap id = some index → (p.paxosLog.log index).isSome

theorem callback_paxosLog (p : TabletParticipant ε) (call : Call Callback) :
    (callback p call).paxosLog = p.paxosLog := by
  unfold callback
  split <;> (dsimp only; split <;> rfl)

theorem callback_requestIdMap (p : TabletParticipant ε) (call : Call Callback) :
    ∃ id, (callback p call).requestIdMap = p.requestIdMap.insert id call.index := by
  unfold callback
  split <;> (dsimp only; split <;> exact ⟨_, rfl⟩)

theorem Sane.callback {p : TabletParticipant ε} (h : Sane p) {call : Call Callback}
    (hindex : (p.paxosLog.log call.index).isSome) : Sane (callback p call) := by
  obtain ⟨newId, hmap⟩ := callback_requestIdMap p call
  constructor
  · rw [callback_paxosLog]
    exact h.wellFormed
  · intro id index hid
    rw [callback_paxosLog]
    rw [hmap, KeyMap.insert_apply] at hid
    split at hid
    · cases hold : p.requestIdMap newId with
      | none =>
          rw [hold] at hid
          cases hid
          exact hindex
      | some index' =>
          rw [hold] at hid
          cases hid
          exact h.populated newId index' hold
    · exact h.populated id index hid

theorem Sane.applyCalls {p : TabletParticipant ε} (h : Sane p) {calls : List (Call Callback)}
    (hcalls : ∀ call ∈ calls, (p.paxosLog.log call.index).isSome) :
    Sane (Tablet.applyCalls () p calls).2 := by
  induction calls generalizing p with
  | nil => exact h
  | cons call calls ih =>
      have hfirst : Sane (ClientRequestHandler.callback p call) :=
        h.callback (hcalls call List.mem_cons_self)
      simp only [Tablet.applyCalls]
      split
      · exact hfirst
      · apply ih hfirst
        intro call' hcall'
        rw [callback_paxosLog]
        exact hcalls call' (List.mem_cons_of_mem _ hcall')

/-- A log calls its callbacks for populated indices. -/
theorem Sane.learn {p : TabletParticipant ε} (h : Sane p) {index : ℕ}
    (hindex : index < 2 ^ 64 - 1) (entry : PaxosLogEntry) :
    Sane (Tablet.learn () p index entry).2 := by
  obtain ⟨l', calls, hset, hspec⟩ := h.wellFormed.setEntry hindex entry
  have hstart : Sane { p with paxosLog := l' } := by
    refine ⟨hspec.wellFormed, ?_⟩
    intro id index' hid
    obtain ⟨entry', hentry'⟩ := Option.isSome_iff_exists.mp (h.populated id index' hid)
    rw [hspec.log, KeyMap.insert_of_some hentry']
    rfl
  simp only [Tablet.learn, hset]
  split
  · exact ⟨h.wellFormed, h.populated⟩
  apply hstart.applyCalls
  intro call hcall
  obtain ⟨m, -, hgap⟩ := h.wellFormed.nextAvailableIndex
  obtain ⟨m', -, hgap'⟩ := hspec.wellFormed.nextAvailableIndex
  rw [hspec.calls m m' hgap hgap', PaxosLog.callsBetween, List.mem_flatMap] at hcall
  obtain ⟨i, hi, hcall⟩ := hcall
  obtain ⟨c, -, rfl⟩ := List.mem_map.mp hcall
  rw [List.mem_range'_1] at hi
  exact hgap'.below i (by omega)

theorem Replica.sane {p : TabletParticipant ε} (h : Replica p) : Sane p := by
  induction h with
  | new =>
      refine ⟨(PaxosLog.new_wellFormed.addCallback _ _).addCallback _ _, ?_⟩
      intro id index hid
      cases hid
  | request _ endpointId message ih => exact ⟨ih.wellFormed, ih.populated⟩
  | learn _ hindex entry ih => exact ih.learn hindex entry
  | run _ _ _ ih => exact ⟨ih.wellFormed, ih.populated⟩
  | stop _ exception ih => exact ⟨ih.wellFormed, ih.populated⟩

/-! ## The participants of a tablet are replicas -/

section
variable {ι : Type}

theorem applyCalls_snd (i : ι) (p : TabletParticipant ε) (calls : List (Call Callback)) :
    (Tablet.applyCalls i p calls).2 = (Tablet.applyCalls () p calls).2 := by
  induction calls generalizing p with
  | nil => rfl
  | cons call calls ih =>
      simp only [Tablet.applyCalls]
      split
      · rfl
      · exact ih _

theorem learn_snd (i : ι) (p : TabletParticipant ε) (index : ℕ) (entry : PaxosLogEntry) :
    (Tablet.learn i p index entry).2 = (Tablet.learn () p index entry).2 := by
  simp only [Tablet.learn]
  split
  · rw [applyCalls_snd i]
    split
    · rfl
    · rfl
  · rfl

/-- A task that throws stops the participant, and so does a proposal that fails. -/
theorem Replica.runFront (i : ι) {p : TabletParticipant ε} (h : Replica p) {task : Task ε}
    {rest : List (Task ε)} (hqueue : p.asyncQueue = task :: rest) :
    Replica (Tablet.run i p task rest).2.1 := by
  unfold Tablet.run
  cases hrun : runTask p task with
  | error exception => exact h.stop exception
  | ok result =>
      have hp := Replica.run h hqueue hrun
      dsimp only
      split
      · exact hp
      · split
        · exact hp
        · exact hp.stop _

variable [DecidableEq ι]

/-- The participants of a tablet, whose agreed log has a greatest position. -/
structure Replicas (s : Tablet.State ι ε) : Prop where
  participants : ∀ i, Replica (s.participants i)
  length : s.agreedLog.entries.length ≤ 2 ^ 64 - 1

theorem Replicas.update {s : Tablet.State ι ε} (h : Replicas s) {i : ι}
    {p : TabletParticipant ε} (hp : Replica p) {agreedLog : AgreedLog PaxosLogEntry}
    (hlength : agreedLog.entries.length ≤ 2 ^ 64 - 1) :
    Replicas (⟨Function.update s.participants i p, agreedLog⟩ : Tablet.State ι ε) := by
  refine ⟨?_, hlength⟩
  intro j
  by_cases hj : j = i
  · subst hj
    simpa using hp
  · simpa [hj] using h.participants j

theorem Replicas.next {s s' : Tablet.State ι ε} (h : Replicas s) {a : Tablet.Action ι ε}
    {events : List (Tablet.Event ι ε)} (hnext : Tablet.next s a = some (events, s')) :
    Replicas s' := by
  cases a with
  | request i endpointId message =>
      cases Tablet.move_of_next hnext
      exact h.update ((h.participants i).request endpointId message) h.length
  | run i =>
      simp only [Tablet.next] at hnext
      split at hnext
      · cases hnext
      · rename_i task rest hqueue
        split at hnext
        · cases hnext
          apply h.update ((h.participants i).runFront i hqueue)
          rw [AgreedLog.entries_offer]
          exact h.length
        · cases hnext
  | choose k =>
      cases Tablet.move_of_next hnext with
      | choose hlength hchoose =>
          obtain ⟨entry, -, hentries, -⟩ := AgreedLog.choose_cases hchoose
          refine ⟨h.participants, ?_⟩
          rw [hentries, List.length_append, List.length_singleton]
          omega
  | learn i index =>
      cases Tablet.move_of_next hnext with
      | @learn _ _ entry hlive hentry =>
          have hlength := h.length
          have hindex := (List.getElem?_eq_some_iff.mp hentry).1
          rw [learn_snd]
          exact h.update ((h.participants i).learn (by omega) entry) h.length

theorem replica_of_run {trace : List (Tablet.Event ι ε)} {s : Tablet.State ι ε}
    (h : (Tablet.machine ι ε).system.Run trace s) (i : ι) : Replica (s.participants i) := by
  have hreplicas : Replicas s := by
    refine h.invariant (I := fun _ s => Replicas s) ?_ ?_
    · intro s hs
      cases hs
      exact ⟨fun _ => .new, Nat.zero_le _⟩
    · intro trace s events s' _ hreplicas hstep
      obtain ⟨a, -, hnext⟩ := hstep
      exact hreplicas.next hnext
  exact hreplicas.participants i

end

/-! ## One run of a task -/

/-- A run with the call of `MultiPaxosHandler::propose` that it makes. -/
def runAndPropose (p : TabletParticipant ε) (task : Task ε) :
    Except UniversalException TaskResult := do
  let result ← runTask p task
  match result.proposal with
  | none => return result
  | some _ =>
      let _ ← p.paxosLog.nextAvailableIndex
      return result

/-- The read that answers a READ request whose id is in the map. -/
def loggedRead (p : TabletParticipant ε) (message : ClientRequest) : Option Read :=
  match message.requestType, p.requestIdMap message.requestId with
  | .READ, some entryIndex => (p.paxosLog.getEntry entryIndex).map PaxosLogEntry.getRead
  | _, _ => none

/-- A read that answers the request is defined: its key has fewer than `2 ^ 31` versions at
or below its timestamp. -/
def Readable (p : TabletParticipant ε) (message : ClientRequest) : Prop :=
  ∀ content ∈ loggedRead p message, p.kvstore.Searchable (StringValue.value content.key)
    (UInt64Value.value content.timestamp)

theorem fulfilled_ok {p : TabletParticipant ε} {message : ClientRequest} {entryIndex : ℕ}
    (hid : p.requestIdMap message.requestId = some entryIndex)
    (hentry : (p.paxosLog.log entryIndex).isSome) (htype : message.requestType ≠ .UNSET)
    (hreadable : Readable p message) :
    ∃ result, fulfilled p message entryIndex = .ok result := by
  obtain ⟨entry, hget⟩ := Option.isSome_iff_exists.mp hentry
  cases hmessage : message.requestType with
  | UNSET => exact absurd hmessage htype
  | WRITE =>
      simp only [fulfilled, hmessage]
      exact ⟨_, rfl⟩
  | READ =>
      have hlogged : loggedRead p message = some entry.getRead := by
        simp only [loggedRead, hmessage, hid, PaxosLog.getEntry, hget, Option.map_some]
      have hread := KVStore.read_eq (hreadable _ hlogged)
      simp only [fulfilled, hmessage, PaxosLog.getEntry, hget, hread]
      cases p.kvstore.lookup (StringValue.value entry.getRead.key)
          (UInt64Value.value entry.getRead.timestamp) with
      | mk value kvstore => cases value <;> exact ⟨_, rfl⟩

/-- A run whose read is undefined. -/
theorem runAndPropose_unreadable {p : TabletParticipant ε} {task : Task ε}
    (h : ¬ Readable p task.message) :
    ∃ exception, runAndPropose p task = .error exception := by
  simp only [Readable, not_forall] at h
  obtain ⟨content, hlogged, hsearch⟩ := h
  unfold loggedRead at hlogged
  split at hlogged
  · rename_i entryIndex htype hid
    obtain ⟨entry, hentry, rfl⟩ := Option.map_eq_some_iff.mp hlogged
    obtain ⟨fault, hread⟩ := KVStore.readWithin_of_long hsearch
      ((p.kvstore.versions (StringValue.value entry.getRead.key)).length + 1)
    have hthrown : runTask p task = .error undefinedRead := by
      simp only [runTask, hid, fulfilled, htype, hentry, KVStore.read, hread]
    exact ⟨undefinedRead, by simp only [runAndPropose, hthrown, bind, Except.bind]⟩
  · cases hlogged

theorem logEntry_ok {message : ClientRequest} (htype : message.requestType ≠ .UNSET) :
    ∃ entry, logEntry message = .ok entry := by
  unfold logEntry
  split
  · exact ⟨_, rfl⟩
  · exact ⟨_, rfl⟩
  · contradiction

/-- A run responds and ends, or proposes as long as the id is not in the map and there are
retries left. -/
theorem Sane.runAndPropose_cases {p : TabletParticipant ε} (h : Sane p) (task : Task ε)
    (htype : task.message.requestType ≠ .UNSET) (hreadable : Readable p task.message) :
    (∃ kvstore response, runAndPropose p task = .ok (.respond kvstore response)) ∨
      (task.retryCount ≠ RETRY_LIMIT ∧ p.requestIdMap task.message.requestId = none ∧
        ∃ entry, runAndPropose p task = .ok ⟨p.kvstore, none, some entry, WAIT_FOR_PAXOS⟩) := by
  unfold runAndPropose runTask
  cases hid : p.requestIdMap task.message.requestId with
  | some entryIndex =>
      obtain ⟨result, hresult⟩ := fulfilled_ok hid (h.populated _ _ hid) htype hreadable
      obtain ⟨kvstore, response, rfl, -⟩ := Tablet.fulfilled_answer hid hresult
      refine .inl ⟨kvstore, response, ?_⟩
      dsimp only
      rw [hresult]
      rfl
  | none =>
      dsimp only
      by_cases hlimit : task.retryCount = RETRY_LIMIT
      · rw [if_pos hlimit]
        exact .inl ⟨_, _, rfl⟩
      · rw [if_neg hlimit]
        cases illegalWrite p.kvstore task.message with
        | true => exact .inl ⟨_, _, rfl⟩
        | false =>
            obtain ⟨entry, hentry⟩ := logEntry_ok htype
            obtain ⟨m, hm, -⟩ := h.wellFormed.nextAvailableIndex
            refine .inr ⟨hlimit, rfl, entry, ?_⟩
            rw [hentry]
            simp only [bind, Except.bind, pure, Except.pure, hm]
            rfl

theorem requestType_of_not_readable {p : TabletParticipant ε} {message : ClientRequest}
    (h : ¬ Readable p message) : message.requestType = .READ := by
  simp only [Readable, not_forall] at h
  obtain ⟨content, hlogged, -⟩ := h
  unfold loggedRead at hlogged
  split at hlogged
  · assumption
  · cases hlogged

/-- A read whose id is not in the map is proposed as long as there are retries left. -/
theorem Sane.runAndPropose_read {p : TabletParticipant ε} (h : Sane p) (task : Task ε)
    (htype : task.message.requestType = .READ)
    (hid : p.requestIdMap task.message.requestId = none) (hlimit : task.retryCount < RETRY_LIMIT) :
    ∃ entry, runAndPropose p task = .ok ⟨p.kvstore, none, some entry, WAIT_FOR_PAXOS⟩ := by
  have hlegal : illegalWrite p.kvstore task.message = false := by simp [illegalWrite, htype]
  obtain ⟨m, hm, -⟩ := h.wellFormed.nextAvailableIndex
  obtain ⟨entry, hentry⟩ := @logEntry_ok task.message (by simp [htype])
  have hrun : runTask p task = .ok ⟨p.kvstore, none, some entry, WAIT_FOR_PAXOS⟩ := by
    simp only [runTask, hid, if_neg hlimit.ne, hlegal, hentry]
    rfl
  refine ⟨entry, ?_⟩
  simp only [runAndPropose, hrun, bind, Except.bind, hm]
  rfl

/-- The first run for a request without a type throws, whether its id is known or not. -/
theorem runAndPropose_unset (p : TabletParticipant ε) (endpointId : ε)
    {message : ClientRequest} (htype : message.requestType = .UNSET) :
    ∃ exception, runAndPropose p ⟨endpointId, message, 0⟩ = .error exception := by
  unfold runAndPropose runTask
  cases hid : p.requestIdMap message.requestId with
  | some entryIndex =>
      simp only [fulfilled, htype]
      exact ⟨_, rfl⟩
  | none =>
      have hlimit : 0 ≠ RETRY_LIMIT := by decide
      have hlegal : illegalWrite p.kvstore message = false := by
        simp [illegalWrite, htype]
      dsimp only
      rw [if_neg hlimit, hlegal]
      simp only [logEntry, htype]
      exact ⟨_, rfl⟩

/-! ## All runs of a task -/

/-- The runs of a task, each on the next of the states, until one throws or the queue has
dropped the task. -/
def taskRuns : (ℕ → TabletParticipant ε) → ℕ → Task ε →
    List (Except UniversalException TaskResult)
  | _, 0, _ => []
  | states, fuel + 1, task =>
      match runAndPropose (states 0) task with
      | .error exception => [.error exception]
      | .ok result =>
          .ok result ::
            match Tablet.queueAfter task [] result.wait with
            | [] => []
            | task :: _ => taskRuns (fun n => states (n + 1)) fuel task

/-- What the runs of a task with some retries left amount to. -/
structure AnswersOnce (retries : ℕ) (results : List TaskResult) : Prop where
  runs : results.length ≤ retries + 1
  proposals : (results.filterMap TaskResult.proposal).length ≤ retries
  last : ∃ before result, results = before ++ [result] ∧
    result.wait = TERMINATE ∧ result.response.isSome ∧
      ∀ r ∈ before, r.wait ≠ TERMINATE ∧ r.response = none

/-- The task never throws, and its last run is the only one that responds. -/
def Answered (states : ℕ → TabletParticipant ε) (task : Task ε) : Prop :=
  ∃ results, (∀ fuel, RETRY_LIMIT + 1 ≤ fuel →
      taskRuns states fuel task = results.map Except.ok) ∧
    AnswersOnce RETRY_LIMIT results

theorem answersOnce_respond (retries : ℕ) (kvstore : KVStore) (response : ClientResponse) :
    AnswersOnce retries [.respond kvstore response] where
  runs := by simp
  proposals := by simp [TaskResult.respond]
  last := ⟨[], _, rfl, rfl, rfl, by simp⟩

theorem AnswersOnce.cons {retries : ℕ} {results : List TaskResult}
    (h : AnswersOnce retries results) (kvstore : KVStore) (entry : PaxosLogEntry) :
    AnswersOnce (retries + 1) (⟨kvstore, none, some entry, WAIT_FOR_PAXOS⟩ :: results) := by
  obtain ⟨before, result, rfl, hwait, hresponse, hbefore⟩ := h.last
  constructor
  · have hruns := h.runs
    simp only [List.length_cons]
    omega
  · have hproposals := h.proposals
    simp only [List.filterMap_cons, List.length_cons]
    omega
  · refine ⟨_ :: before, result, rfl, hwait, hresponse, ?_⟩
    intro r hr
    rcases List.mem_cons.mp hr with rfl | hr
    · have hwaits : WAIT_FOR_PAXOS ≠ TERMINATE := by decide
      exact ⟨hwaits, rfl⟩
    · exact hbefore r hr

/-- Every run that takes place finds a defined read or none. A run takes place if the id is
not in the map before. -/
def Readables (retries : ℕ) (states : ℕ → TabletParticipant ε) (message : ClientRequest) :
    Prop :=
  ∀ n ≤ retries, (∀ m < n, (states m).requestIdMap message.requestId = none) →
    Readable (states n) message

theorem Readables.shift {retries : ℕ} {states : ℕ → TabletParticipant ε}
    {message : ClientRequest} (h : Readables (retries + 1) states message)
    (hid : (states 0).requestIdMap message.requestId = none) :
    Readables retries (fun n => states (n + 1)) message := by
  intro n hn hbefore
  apply h (n + 1) (by omega)
  rintro (_ | m) hm
  · exact hid
  · exact hbefore m (by omega)

/-- By induction on the retries that are left. -/
theorem taskRuns_answersOnce (retries : ℕ) {states : ℕ → TabletParticipant ε}
    (hstates : ∀ n, Sane (states n)) {task : Task ε}
    (htype : task.message.requestType ≠ .UNSET)
    (hreadables : Readables retries states task.message)
    (hretries : task.retryCount + retries = RETRY_LIMIT) :
    ∃ results, (∀ fuel, retries + 1 ≤ fuel →
        taskRuns states fuel task = results.map Except.ok) ∧
      AnswersOnce retries results := by
  induction retries generalizing states task with
  | zero =>
      have hreadable := hreadables 0 le_rfl (by simp)
      rcases (hstates 0).runAndPropose_cases task htype hreadable with
        ⟨kvstore, response, hrun⟩ | ⟨hlimit, -⟩
      · refine ⟨_, ?_, answersOnce_respond 0 kvstore response⟩
        rintro (_ | fuel) hfuel
        · omega
        · simp only [taskRuns, hrun]
          rfl
      · exact absurd hretries hlimit
  | succ retries ih =>
      have hreadable := hreadables 0 (Nat.zero_le _) (by simp)
      rcases (hstates 0).runAndPropose_cases task htype hreadable with
        ⟨kvstore, response, hrun⟩ | ⟨-, hid, entry, hrun⟩
      · refine ⟨_, ?_, answersOnce_respond (retries + 1) kvstore response⟩
        rintro (_ | fuel) hfuel
        · omega
        · simp only [taskRuns, hrun]
          rfl
      · let task' : Task ε := { task with retryCount := task.retryCount + 1 }
        have hretries' : task'.retryCount + retries = RETRY_LIMIT := by
          rw [← hretries]
          change task.retryCount + 1 + retries = task.retryCount + (retries + 1)
          omega
        obtain ⟨results, hruns, hanswers⟩ :=
          @ih (fun n => states (n + 1)) (fun n => hstates (n + 1)) task' htype
            (hreadables.shift hid) hretries'
        refine ⟨_, ?_, hanswers.cons (states 0).kvstore entry⟩
        rintro (_ | fuel) hfuel
        · omega
        · have hrest := hruns fuel (by omega)
          simp only [taskRuns, hrun]
          rw [List.map_cons, ← hrest]
          rfl

/-- The runs come to an undefined read, by induction on the runs before it. -/
theorem error_mem_taskRuns (n : ℕ) {states : ℕ → TabletParticipant ε}
    (hstates : ∀ n, Sane (states n)) (task : Task ε)
    (hbefore : ∀ m < n, (states m).requestIdMap task.message.requestId = none)
    (hlast : ¬ Readable (states n) task.message) (hretries : task.retryCount + n ≤ RETRY_LIMIT)
    {fuel : ℕ} (hfuel : n < fuel) :
    ∃ exception, .error exception ∈ taskRuns states fuel task := by
  obtain ⟨fuel, rfl⟩ : ∃ fuel', fuel = fuel' + 1 := ⟨fuel - 1, by omega⟩
  induction n generalizing states task fuel with
  | zero =>
      obtain ⟨exception, hrun⟩ := runAndPropose_unreadable hlast
      exact ⟨exception, by simp only [taskRuns, hrun, List.mem_singleton]⟩
  | succ n ih =>
      obtain ⟨fuel, rfl⟩ : ∃ fuel', fuel = fuel' + 1 := ⟨fuel - 1, by omega⟩
      obtain ⟨entry, hrun⟩ := (hstates 0).runAndPropose_read task
        (requestType_of_not_readable hlast) (hbefore 0 (by omega)) (by omega)
      obtain ⟨exception, hmem⟩ := @ih (fun n => states (n + 1)) (fun n => hstates (n + 1))
        { task with retryCount := task.retryCount + 1 } (fun m hm => hbefore (m + 1) (by omega))
        hlast (by simp only; omega) fuel (by omega)
      refine ⟨exception, ?_⟩
      simp only [taskRuns, hrun]
      exact List.mem_cons_of_mem _ hmem

theorem not_answered_of_error {states : ℕ → TabletParticipant ε} {task : Task ε}
    {exception : UniversalException}
    (h : .error exception ∈ taskRuns states (RETRY_LIMIT + 1) task) :
    ¬ Answered states task := by
  rintro ⟨results, hruns, -⟩
  rw [hruns (RETRY_LIMIT + 1) le_rfl] at h
  obtain ⟨result, -, hresult⟩ := List.mem_map.mp h
  cases hresult

/-- Whatever the states of the replica in which its task runs, a request is answered once
exactly if it has a type and every read that may answer it is defined. -/
theorem answered_iff (states : ℕ → TabletParticipant ε) (hstates : ∀ n, Replica (states n))
    (endpointId : ε) (message : ClientRequest) :
    Answered states ⟨endpointId, message, 0⟩ ↔
      message.requestType ≠ .UNSET ∧ Readables RETRY_LIMIT states message := by
  have hsane : ∀ n, Sane (states n) := fun n => (hstates n).sane
  constructor
  · intro h
    refine ⟨?_, ?_⟩
    · intro htype
      obtain ⟨exception, hrun⟩ := runAndPropose_unset (states 0) endpointId htype
      have hmem : .error exception ∈
          taskRuns states (RETRY_LIMIT + 1) ⟨endpointId, message, 0⟩ := by
        simp only [taskRuns, hrun, List.mem_singleton]
      exact not_answered_of_error hmem h
    · intro n hn hbefore
      by_contra hlast
      obtain ⟨exception, hmem⟩ := error_mem_taskRuns n hsane ⟨endpointId, message, 0⟩
        hbefore hlast (by simpa using hn) (Nat.lt_succ_of_le hn)
      exact not_answered_of_error hmem h
  · rintro ⟨htype, hreadables⟩
    exact taskRuns_answersOnce RETRY_LIMIT hsane htype hreadables (Nat.zero_add _)

def sampleRequest : ClientRequest := ⟨"r", .READ, "d", "t", "k", none, some 5⟩

/-- A replica that has just started, and later has learned a write and the entry that was
proposed for the request. -/
def sampleStates : ℕ → TabletParticipant Unit
  | 0 => new
  | _ + 1 =>
      (Tablet.learn () (Tablet.learn () new 0 (.write ⟨some "w", some "k", some "v", some 4⟩)).2 1
        (.read ⟨some "r", some "k", some 5⟩)).2

theorem answered_iff_sample :
    (∀ n, Replica (sampleStates n)) ∧
      ((runAndPropose (sampleStates 0) ⟨(), sampleRequest, 0⟩).toOption.bind
        TaskResult.proposal).isSome ∧
      ((runAndPropose (sampleStates 1) ⟨(), sampleRequest, 1⟩).toOption.bind
        TaskResult.response) = some ⟨some "v", .SUCCESS⟩ ∧
      Answered sampleStates ⟨(), sampleRequest, 0⟩ := by
  have hreplica : ∀ n, Replica (sampleStates n) := by
    rintro (_ | n)
    · exact .new
    · exact ((Replica.new.learn (by decide) _)).learn (by decide) _
  have hreadables : Readables RETRY_LIMIT sampleStates sampleRequest := by
    rintro (_ | n) - - content hcontent
    · cases hcontent
    · obtain rfl : content = ⟨some "r", some "k", some 5⟩ := by
        have hlogged : loggedRead (sampleStates (n + 1)) sampleRequest =
            some ⟨some "r", some "k", some 5⟩ := rfl
        rw [hlogged] at hcontent
        exact (Option.some.inj hcontent).symm
      change (sampleStates 1).kvstore.Searchable "k" 5
      decide
  refine ⟨hreplica, by decide, by decide, ?_⟩
  exact (answered_iff sampleStates hreplica () sampleRequest).mpr ⟨by decide, hreadables⟩

/-- A request in which no field is set. -/
def unsetRequest : ClientRequest := ⟨"", .UNSET, "", "", "", none, none⟩

theorem unsetRequest_not_answered :
    Replica (new : TabletParticipant Unit) ∧
      ¬ Answered (fun _ => (new : TabletParticipant Unit)) ⟨(), unsetRequest, 0⟩ :=
  ⟨.new, not_answered_of_error (List.mem_singleton.mpr rfl)⟩

end UniversalDB.ClientRequestHandler
