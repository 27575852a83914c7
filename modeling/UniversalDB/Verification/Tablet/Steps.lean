import UniversalDB.Verification.Tablet.Replay

/-! # The steps of the participants -/

namespace UniversalDB.Tablet

open ClientRequestHandler

variable {ι ε : Type}

/-- The response to a read that has returned `value`. -/
def readResponse (value : Option String) : ClientResponse :=
  match value with
  | some value => ⟨some value, .SUCCESS⟩
  | none => ⟨none, .ERROR⟩

/-- How a task that ends answers its request: by the log index of the request, the store it
leaves and the response. -/
inductive Answer (p : TabletParticipant ε) (message : ClientRequest) :
    Option ℕ → KVStore → ClientResponse → Prop where
  | read {entryIndex entry}
      (hid : p.requestIdMap message.requestId = some entryIndex)
      (htype : message.requestType = .READ)
      (hentry : p.paxosLog.getEntry entryIndex = some entry) :
      Answer p message (some entryIndex) (readLogged p.kvstore entry.getRead).2
        (readResponse (readLogged p.kvstore entry.getRead).1)
  | written {entryIndex}
      (hid : p.requestIdMap message.requestId = some entryIndex)
      (htype : message.requestType = .WRITE) :
      Answer p message (some entryIndex) p.kvstore ⟨none, .SUCCESS⟩
  | refused (hid : p.requestIdMap message.requestId = none) :
      Answer p message none p.kvstore ⟨none, .ERROR⟩

theorem fulfilled_answer {p : TabletParticipant ε} {message : ClientRequest}
    {entryIndex : ℕ} (hid : p.requestIdMap message.requestId = some entryIndex)
    {result : TaskResult} (h : fulfilled p message entryIndex = .ok result) :
    ∃ kvstore response, result = .respond kvstore response ∧
      Answer p message (some entryIndex) kvstore response := by
  unfold fulfilled at h
  split at h
  · rename_i htype
    split at h
    · cases h
    · rename_i entry hentry
      have hanswer := Answer.read hid htype hentry
      dsimp only at h
      split at h
      · rename_i value kvstore hread
        cases h
        refine ⟨_, _, rfl, ?_⟩
        rw [readLogged, (KVStore.read_ok_iff.mp hread).2] at hanswer
        exact hanswer
      · rename_i kvstore hread
        cases h
        refine ⟨_, _, rfl, ?_⟩
        rw [readLogged, (KVStore.read_ok_iff.mp hread).2] at hanswer
        exact hanswer
      · cases h
  · rename_i htype
    cases h
    exact ⟨_, _, rfl, .written hid htype⟩
  · cases h

/-- A task that does not throw answers, or proposes the entry of its request. -/
theorem runTask_cases {p : TabletParticipant ε} {task : Task ε} {result : TaskResult}
    (h : runTask p task = .ok result) :
    (∃ kvstore response, result = .respond kvstore response ∧
      Answer p task.message (p.requestIdMap task.message.requestId) kvstore response) ∨
    ∃ entry, result = ⟨p.kvstore, none, some entry, WAIT_FOR_PAXOS⟩ ∧
      p.requestIdMap task.message.requestId = none ∧
      illegalWrite p.kvstore task.message = false ∧ logEntry task.message = .ok entry := by
  unfold runTask at h
  cases hid : p.requestIdMap task.message.requestId with
  | some entryIndex =>
      simp only [hid] at h
      exact .inl (fulfilled_answer hid h)
  | none =>
      simp only [hid] at h
      split at h
      · cases h
        exact .inl ⟨_, _, rfl, .refused hid⟩
      · split at h
        · cases h
          exact .inl ⟨_, _, rfl, .refused hid⟩
        · rename_i hlegal
          cases hentry : logEntry task.message with
          | error exception =>
              rw [hentry] at h
              cases h
          | ok entry =>
              rw [hentry] at h
              cases h
              exact .inr ⟨entry, rfl, rfl, by simpa using hlegal, rfl⟩

variable [DecidableEq ι]

/-- What a step can do. `failPropose` never happens on a well-formed log. -/
inductive Move (s : State ι ε) : Action ι ε → List (Event ι ε) → State ι ε → Prop where
  | request (i : ι) (endpointId : ε) (message : ClientRequest) :
      Move s (.request i endpointId message) [.requested i endpointId message]
        { s with
          participants := Function.update s.participants i
            (handleRequest (s.participants i) endpointId message) }
  | fail {i task rest exception}
      (hqueue : (s.participants i).asyncQueue = task :: rest)
      (hlive : (s.participants i).exception = none)
      (hrun : runTask (s.participants i) task = .error exception) :
      Move s (.run i) []
        { s with
          participants := Function.update s.participants i
            { s.participants i with exception := some exception } }
  | respond {i task rest kvstore response}
      (hqueue : (s.participants i).asyncQueue = task :: rest)
      (hlive : (s.participants i).exception = none)
      (hanswer : Answer (s.participants i) task.message
        ((s.participants i).requestIdMap task.message.requestId) kvstore response) :
      Move s (.run i)
        [.responded i task.endpointId task.message
          ((s.participants i).requestIdMap task.message.requestId) response]
        { s with
          participants := Function.update s.participants i
            { s.participants i with kvstore := kvstore, asyncQueue := rest } }
  | propose {i task rest entry index}
      (hqueue : (s.participants i).asyncQueue = task :: rest)
      (hlive : (s.participants i).exception = none)
      (hid : (s.participants i).requestIdMap task.message.requestId = none)
      (hlegal : illegalWrite (s.participants i).kvstore task.message = false)
      (hentry : logEntry task.message = .ok entry)
      (hindex : (s.participants i).paxosLog.nextAvailableIndex = .ok index) :
      Move s (.run i) [.proposed i index entry]
        ⟨Function.update s.participants i
          { s.participants i with
            asyncQueue := { task with retryCount := task.retryCount + 1 } :: rest },
          s.agreedLog.propose index entry⟩
  | failPropose {i exception s'}
      (hindex : (s.participants i).paxosLog.nextAvailableIndex = .error exception) :
      Move s (.run i) [] s'
  | choose {k agreedLog} (hlength : s.agreedLog.entries.length < 2 ^ 64 - 1)
      (hchoose : s.agreedLog.choose k = some agreedLog) :
      Move s (.choose k) [] { s with agreedLog := agreedLog }
  | learn {i index entry} (hlive : (s.participants i).exception = none)
      (hentry : s.agreedLog.entries[index]? = some entry) :
      Move s (.learn i index) (learn i (s.participants i) index entry).1
        { s with
          participants := Function.update s.participants i
            (learn i (s.participants i) index entry).2 }

theorem move_of_run {s : State ι ε} {i : ι} {task : Task ε} {rest : List (Task ε)}
    (hqueue : (s.participants i).asyncQueue = task :: rest)
    (hlive : (s.participants i).exception = none) :
    Move s (.run i) (s.finish i (run i (s.participants i) task rest)).1
      (s.finish i (run i (s.participants i) task rest)).2 := by
  unfold run
  cases hrun : runTask (s.participants i) task with
  | error exception => exact .fail hqueue hlive hrun
  | ok result =>
      rcases runTask_cases hrun with ⟨kvstore, response, rfl, hanswer⟩ |
        ⟨entry, rfl, hid, hlegal, hentry⟩
      · exact .respond hqueue hlive hanswer
      · cases hindex : (s.participants i).paxosLog.nextAvailableIndex with
        | ok index => exact .propose hqueue hlive hid hlegal hentry hindex
        | error exception => exact .failPropose hindex

theorem move_of_next {s s' : State ι ε} {a : Action ι ε} {events : List (Event ι ε)}
    (h : next s a = some (events, s')) : Move s a events s' := by
  cases a with
  | request i endpointId message =>
      simp only [next] at h
      split at h
      · cases h
        exact .request i endpointId message
      · cases h
  | run i =>
      simp only [next] at h
      cases hqueue : (s.participants i).asyncQueue with
      | nil => simp [hqueue] at h
      | cons task rest =>
          simp only [hqueue] at h
          split at h
          · rename_i hlive
            have hmove := move_of_run hqueue (by simpa using hlive)
            rw [Option.some.inj h] at hmove
            exact hmove
          · cases h
  | choose k =>
      simp only [next] at h
      split at h
      · rename_i hlength
        cases hchoose : s.agreedLog.choose k with
        | none => simp [hchoose] at h
        | some agreedLog =>
            simp only [hchoose, Option.some.injEq, Prod.mk.injEq] at h
            obtain ⟨rfl, rfl⟩ := h
            exact .choose hlength hchoose
      · cases h
  | learn i index =>
      simp only [next] at h
      cases hentry : s.agreedLog.entries[index]? with
      | none => simp [hentry] at h
      | some entry =>
          simp only [hentry] at h
          split at h
          · rename_i hlive
            simp only [Option.some.injEq, Prod.mk.injEq] at h
            obtain ⟨rfl, rfl⟩ := h
            exact .learn (by simpa using hlive) hentry
          · cases h

/-! ## Reads outside the log -/

/-- The store and the logged read of an action that answers a READ request. This read is
made by one participant only. -/
def answeredRead (s : State ι ε) : Action ι ε → Option (KVStore × Read)
  | .run i =>
      let p := s.participants i
      match p.asyncQueue with
      | [] => none
      | task :: _ =>
          match task.message.requestType, p.requestIdMap task.message.requestId with
          | .READ, some entryIndex =>
              (p.paxosLog.getEntry entryIndex).map fun entry => (p.kvstore, entry.getRead)
          | _, _ => none
  | _ => none

/-- Runs in which every answered read meets `allowed`. -/
def restricted (ι ε : Type) [DecidableEq ι] (allowed : KVStore → Read → Prop) :
    TransitionSystem (State ι ε) (Event ι ε) :=
  (machine ι ε).guarded fun s a => ∀ x ∈ answeredRead s a, allowed x.1 x.2

omit [DecidableEq ι] in
theorem answeredRead_of_answer {s : State ι ε} {i : ι} {task : Task ε}
    {rest : List (Task ε)} (hqueue : (s.participants i).asyncQueue = task :: rest)
    {entryIndex : ℕ} {entry : PaxosLogEntry}
    (hid : (s.participants i).requestIdMap task.message.requestId = some entryIndex)
    (htype : task.message.requestType = .READ)
    (hentry : (s.participants i).paxosLog.getEntry entryIndex = some entry) :
    answeredRead s (.run i) = some ((s.participants i).kvstore, entry.getRead) := by
  simp [answeredRead, hqueue, hid, htype, hentry]

/-- Without a restriction all runs are meant. -/
theorem restricted_of_run {trace : List (Event ι ε)} {s : State ι ε}
    (h : (machine ι ε).system.Run trace s) :
    (restricted ι ε fun _ _ => True).Run trace s :=
  Machine.guarded_of_run (fun _ _ _ _ => trivial) h

end UniversalDB.Tablet
