import UniversalDB.Verification.PaxosLog.Invariant
import UniversalDB.Verification.ProposerQueue.Turns

/-! # When `ProposerQueue` keeps its representation invariant

A job that fires after the log has passed its index drops out, and the queue is never run
again. As long as no job does, a queue with tasks has one job. -/

namespace UniversalDB.ProposerQueue

variable {τ κ : Type}

/-! ## Running the next task -/

/-- What `remove_invalid_tasks` leaves: the task in front is one whose try callback has
returned an entry. -/
structure Cleaned (trace : List (Event τ)) (q : ProposerQueue τ κ) (events : List (Event τ))
    (entry : Option PaxosLogEntry) (q' : ProposerQueue τ κ) : Prop where
  timerScheduler : q'.timerScheduler = q.timerScheduler
  paxosLog : q'.paxosLog = q.paxosLog
  books : Books (trace ++ events) q'.tasks []
  unproposed : ¬ Proposed (trace ++ events)
  unfired : ∀ job index, .fired job index ∉ events
  empty : entry = none → q'.tasks = []
  front : ∀ value, entry = some value → ∃ task rest, q'.tasks = task :: rest ∧
    .tried task (some value) ∈ turn (trace ++ events)

theorem cleaned_empty {trace : List (Event τ)} {q : ProposerQueue τ κ}
    (hbooks : Books trace q.tasks []) (hunproposed : ¬ Proposed trace) (hempty : q.tasks = []) :
    Cleaned trace q [] none q where
  timerScheduler := rfl
  paxosLog := rfl
  books := by
    rw [List.append_nil]
    exact hbooks
  unproposed := by
    rw [List.append_nil]
    exact hunproposed
  unfired := by simp
  empty _ := hempty
  front := by simp

/-- One more task in front, which is popped. -/
theorem Cleaned.cons {trace events events₁ : List (Event τ)} {q q₁ q' : ProposerQueue τ κ}
    {entry : Option PaxosLogEntry} (h : Cleaned (trace ++ events₁) q₁ events entry q')
    (htimer : q₁.timerScheduler = q.timerScheduler) (hlog : q₁.paxosLog = q.paxosLog)
    (hunfired : ∀ job index, .fired job index ∉ events₁) :
    Cleaned trace q (events₁ ++ events) entry q' where
  timerScheduler := h.timerScheduler.trans htimer
  paxosLog := h.paxosLog.trans hlog
  books := by
    rw [← List.append_assoc]
    exact h.books
  unproposed := by
    rw [← List.append_assoc]
    exact h.unproposed
  unfired := by
    intro job index hmem
    rcases List.mem_append.mp hmem with hmem | hmem
    · exact hunfired job index hmem
    · exact h.unfired job index hmem
  empty := h.empty
  front := by
    rw [← List.append_assoc]
    exact h.front

theorem removeInvalidTasks_cleaned {runs : List (TryRun τ)} {trace : List (Event τ)}
    {q q' : ProposerQueue τ κ} (hbooks : Books trace q.tasks []) (hunproposed : ¬ Proposed trace)
    {events : List (Event τ)} {entry : Option PaxosLogEntry}
    (h : q.removeInvalidTasks runs = some (events, entry, q')) :
    Cleaned trace q events entry q' := by
  induction runs generalizing trace q events with
  | nil =>
      obtain ⟨timerScheduler, paxosLog, tasks⟩ := q
      cases tasks with
      | nil =>
          simp only [removeInvalidTasks] at h
          cases h
          exact cleaned_empty hbooks hunproposed rfl
      | cons task rest => simp [removeInvalidTasks] at h
  | cons run runs ih =>
      obtain ⟨timerScheduler, paxosLog, tasks⟩ := q
      cases tasks with
      | nil =>
          simp only [removeInvalidTasks] at h
          cases h
          exact cleaned_empty hbooks hunproposed rfl
      | cons task rest =>
          obtain ⟨htried, hquiet⟩ := hbooks.tryRun hunproposed run.inserted run.result
          simp only [removeInvalidTasks] at h
          split at h
          · rename_i value hvalue
            cases h
            rw [List.append_assoc] at htried hquiet
            refine ⟨rfl, rfl, htried, hquiet, by simp, by simp, ?_⟩
            intro value' heq
            cases heq
            refine ⟨task, rest ++ run.inserted, rfl, ?_⟩
            rw [← List.append_assoc, hvalue]
            exact mem_turn_self (by simp)
          · split at h
            · cases h
            · rename_i events' entry' q'' hrest
              cases h
              obtain ⟨hpopped, hquiet'⟩ := htried.pop fun hproposed => absurd hproposed hquiet
              rw [List.append_assoc, List.append_assoc] at hpopped hquiet'
              have hcleaned := (ih hpopped hquiet' hrest).cons
                (q := ⟨timerScheduler, paxosLog, task :: rest⟩) rfl rfl (by simp)
              simpa using hcleaned

/-- The representation invariant: the task in front has returned an entry, which is in
proposal, and one job is pending, which is for this task; or there is neither a task nor a
job. -/
inductive Schedule (trace : List (Event τ)) : List τ → List (TryProposal τ × ℤ) → Prop where
  | idle : Schedule trace [] []
  | waiting {job : TryProposal τ} {rest : List τ} (htries : 0 < job.tries)
      (htried : .tried job.task (some job.entry) ∈ turn trace)
      (hproposed : .proposed job.task job.index job.entry ∈ turn trace) :
      Schedule trace (job.task :: rest) [(job, PROPOSAL_WAIT_TIME)]

/-- What `run_task` leaves of a queue without a job. -/
structure Restarted (trace : List (Event τ)) (q : ProposerQueue τ κ)
    (events : List (Event τ)) (q' : ProposerQueue τ κ) : Prop where
  paxosLog : q'.paxosLog = q.paxosLog
  books : Books (trace ++ events) q'.tasks []
  unproposed : q'.tasks = [] → ¬ Proposed (trace ++ events)
  unfired : ∀ job index, .fired job index ∉ events
  schedule : Schedule (trace ++ events) q'.tasks q'.timerScheduler.jobs

/-- A proposal at the next available index, with tries left. -/
theorem tryProposalWith_of_tries
    {run : ProposerQueue τ κ → Option (List (Event τ) × ProposerQueue τ κ)}
    {q : ProposerQueue τ κ} {job : TryProposal τ} {next : ℕ}
    (hnext : q.paxosLog.nextAvailableIndex = .ok next) (hindex : next ≤ job.index)
    (htries : 0 < job.tries) (inserted : List τ) :
    tryProposalWith run q job inserted =
      some ([.proposed job.task job.index job.entry],
        { q with timerScheduler := q.timerScheduler.scheduleOnce job PROPOSAL_WAIT_TIME }) := by
  simp only [tryProposalWith, hnext]
  rw [if_neg (by omega), if_pos htries]

/-- The proposal with which the turn of a task begins. -/
theorem tryProposalWith_first
    {run : ProposerQueue τ κ → Option (List (Event τ) × ProposerQueue τ κ)}
    {q : ProposerQueue τ κ} {index : ℕ} (hindex : q.paxosLog.nextAvailableIndex = .ok index)
    (task : τ) (entry : PaxosLogEntry) (inserted : List τ) :
    tryProposalWith run q ⟨task, index, entry, PROPOSAL_RETRIES⟩ inserted =
      some ([.proposed task index entry],
        { q with
          timerScheduler := q.timerScheduler.scheduleOnce ⟨task, index, entry, PROPOSAL_RETRIES⟩
            PROPOSAL_WAIT_TIME }) := by
  have htries : 0 < PROPOSAL_RETRIES := by decide
  exact tryProposalWith_of_tries hindex le_rfl htries inserted

/-- `run_task` as the source has it, where `try_proposal` may end with `run_task`. -/
theorem runTask_eq (q : ProposerQueue τ κ) (runs : List (TryRun τ)) (inserted : List τ)
    (runs' : List (TryRun τ)) :
    q.runTask runs =
      match q.removeInvalidTasks runs with
      | none => none
      | some (events, none, q') => some (events, q')
      | some (events, some entry, q') =>
          match q'.tasks, q'.paxosLog.nextAvailableIndex with
          | task :: _, .ok index =>
              match q'.tryProposal ⟨task, index, entry, PROPOSAL_RETRIES⟩ inserted runs' with
              | none => none
              | some (events', q'') => some (events ++ events', q'')
          | _, _ => none := by
  unfold runTask
  rcases q.removeInvalidTasks runs with _ | ⟨events, _ | entry, q'⟩
  · rfl
  · rfl
  · cases htasks : q'.tasks with
    | nil => simp only [htasks]
    | cons task rest =>
        cases hindex : q'.paxosLog.nextAvailableIndex with
        | error exception => simp only [htasks, hindex]
        | ok index => simp only [htasks, hindex, tryProposal, tryProposalWith_first hindex]

theorem runTask_restarted {trace : List (Event τ)} {q q' : ProposerQueue τ κ}
    (hjobs : q.timerScheduler.jobs = []) (hbooks : Books trace q.tasks [])
    (hunproposed : ¬ Proposed trace) {runs : List (TryRun τ)} {events : List (Event τ)}
    (h : q.runTask runs = some (events, q')) : Restarted trace q events q' := by
  unfold runTask at h
  split at h
  · cases h
  · rename_i events₀ q₀ hremove
    cases h
    have hcleaned := removeInvalidTasks_cleaned hbooks hunproposed hremove
    refine ⟨hcleaned.paxosLog, hcleaned.books, fun _ => hcleaned.unproposed,
      hcleaned.unfired, ?_⟩
    rw [hcleaned.timerScheduler, hjobs, hcleaned.empty rfl]
    exact .idle
  · rename_i events₀ entry q₀ hremove
    have hcleaned := removeInvalidTasks_cleaned hbooks hunproposed hremove
    obtain ⟨task, rest, htasks, htried⟩ := hcleaned.front entry rfl
    split at h
    · rename_i task' rest' index htasks' hindex
      rw [htasks] at htasks'
      cases htasks'
      rw [tryProposalWith_first hindex] at h
      cases h
      have hproposed : Books (trace ++ events₀ ++ [Event.proposed task index entry])
          (task :: rest) [] := (htasks ▸ hcleaned.books).serve rfl
      refine ⟨hcleaned.paxosLog, ?_, ?_, ?_, ?_⟩
      · rw [← List.append_assoc]
        simpa [htasks] using hproposed
      · intro hempty
        rw [htasks] at hempty
        cases hempty
      · have hunfired := hcleaned.unfired
        simpa using hunfired
      · rw [← List.append_assoc]
        simp only [TimerAsyncScheduler.scheduleOnce, hcleaned.timerScheduler, hjobs,
          List.nil_append, htasks]
        have htries : 0 < PROPOSAL_RETRIES := by decide
        exact @Schedule.waiting _ _ ⟨task, index, entry, PROPOSAL_RETRIES⟩ rest htries
          (mem_turn_concat (by simp) htried) (mem_turn_self (by simp))
    · cases h

/-! ## Steps -/

/-- No job has fired after the log has passed its index. -/
def Timely (trace : List (Event τ)) : Prop :=
  ∀ job nextAvailableIndex, .fired job nextAvailableIndex ∈ trace →
    nextAvailableIndex ≤ job.index

theorem Timely.append {trace events : List (Event τ)}
    (hevents : ∀ job index, .fired job index ∉ events) :
    Timely (trace ++ events) ↔ Timely trace := by
  simp [Timely, hevents]

/-- A queue is scheduled as long as its jobs are in time. Then it is stalled for ever. -/
structure Inv (trace : List (Event τ)) (q : ProposerQueue τ κ) : Prop where
  wellFormed : q.paxosLog.WellFormed
  books : Books trace q.tasks []
  unproposed : q.tasks = [] → ¬ Proposed trace
  phase : (Timely trace ∧ Schedule trace q.tasks q.timerScheduler.jobs) ∨
    (¬ Timely trace ∧ q.tasks ≠ [] ∧ q.timerScheduler.jobs = [])

theorem Schedule.jobs_eq_nil {trace : List (Event τ)} {jobs : List (TryProposal τ × ℤ)}
    (h : Schedule trace [] jobs) : jobs = [] := by
  cases h
  rfl

theorem Schedule.tasks_eq_nil {trace : List (Event τ)} {tasks : List τ}
    (h : Schedule trace tasks []) : tasks = [] := by
  cases h
  rfl

theorem Schedule.insert {trace : List (Event τ)} {task : τ} {rest : List τ}
    {jobs : List (TryProposal τ × ℤ)} (h : Schedule trace (task :: rest) jobs) (task' : τ) :
    Schedule (trace ++ [Event.inserted task']) (task :: rest ++ [task']) jobs := by
  cases h with
  | waiting htries htried hproposed =>
      exact .waiting htries (mem_turn_concat (by simp) htried)
        (mem_turn_concat (by simp) hproposed)

theorem Restarted.inv {trace events : List (Event τ)} {q q' : ProposerQueue τ κ}
    (h : Restarted trace q events q') (hwf : q.paxosLog.WellFormed) (htimely : Timely trace) :
    Inv (trace ++ events) q' where
  wellFormed := by
    rw [h.paxosLog]
    exact hwf
  books := h.books
  unproposed := h.unproposed
  phase := .inl ⟨(Timely.append h.unfired).mpr htimely, h.schedule⟩

/-- A task that is inserted while another one is in front, as by a callback, is only
pushed. -/
theorem tryInsert_of_ne_nil {q : ProposerQueue τ κ} (h : q.tasks ≠ []) (task : τ)
    (runs : List (TryRun τ)) :
    q.tryInsert task runs = some ([.inserted task], { q with tasks := q.tasks ++ [task] }) := by
  have hlength : ¬ (q.tasks ++ [task]).length = 1 := by simpa using h
  simp only [ProposerQueue.tryInsert]
  rw [if_neg hlength]

theorem Inv.tryInsert {trace : List (Event τ)} {q q' : ProposerQueue τ κ} (h : Inv trace q)
    {task : τ} {runs : List (TryRun τ)} {events : List (Event τ)}
    (hnext : q.tryInsert task runs = some (events, q')) : Inv (trace ++ events) q' := by
  obtain ⟨timerScheduler, paxosLog, tasks⟩ := q
  have hinserted := h.books.insert task
  have hunfired : ∀ job index, .fired job index ∉ [(.inserted task : Event τ)] := by simp
  cases tasks with
  | nil =>
      rcases h.phase with ⟨htimely, hschedule⟩ | ⟨-, hne, -⟩
      · have hjobs : timerScheduler.jobs = [] := hschedule.jobs_eq_nil
        have hquiet : ¬ Proposed (trace ++ [Event.inserted task]) := by
          rw [proposed_concat (by simp)]
          simpa [Event.isProposed] using h.unproposed rfl
        simp only [ProposerQueue.tryInsert] at hnext
        have hlength : ([] ++ [task]).length = 1 := rfl
        rw [if_pos hlength] at hnext
        split at hnext
        · cases hnext
        · rename_i events' q'' hrun
          cases hnext
          have hrestarted := runTask_restarted hjobs hinserted hquiet hrun
          have hinv := hrestarted.inv h.wellFormed ((Timely.append hunfired).mpr htimely)
          simpa using hinv
      · exact absurd rfl hne
  | cons front rest =>
      rw [tryInsert_of_ne_nil (List.cons_ne_nil front rest)] at hnext
      cases hnext
      refine ⟨h.wellFormed, hinserted, by simp, ?_⟩
      rcases h.phase with ⟨htimely, hschedule⟩ | ⟨hlate, -, hjobs⟩
      · exact .inl ⟨(Timely.append hunfired).mpr htimely, hschedule.insert task⟩
      · exact .inr ⟨fun htimely => hlate ((Timely.append hunfired).mp htimely), by simp, hjobs⟩

/-- What `try_proposal` can do for the task in front. -/
theorem tryProposal_cases {q q' : ProposerQueue τ κ} (job : TryProposal τ) {rest : List τ}
    (htasks : q.tasks = job.task :: rest) {next : ℕ}
    (hindex : q.paxosLog.nextAvailableIndex = .ok next) {inserted : List τ}
    {runs : List (TryRun τ)} {events : List (Event τ)}
    (h : q.tryProposal job inserted runs = some (events, q')) :
    (job.index < next ∧ events = [] ∧ q' = q) ∨
      (next ≤ job.index ∧ 0 < job.tries ∧
        events = [.proposed job.task job.index job.entry] ∧
        q' = { q with
          timerScheduler := q.timerScheduler.scheduleOnce job PROPOSAL_WAIT_TIME }) ∨
      (next ≤ job.index ∧ ∃ events',
        events = .failed job.task :: inserted.map Event.inserted ++
          Event.popped job.task :: events' ∧
        runTask { q with tasks := rest ++ inserted } runs = some (events', q')) := by
  rcases Nat.lt_or_ge job.index next with hlate | hle
  · simp only [tryProposal, tryProposalWith, hindex, if_pos hlate, Option.some.injEq,
      Prod.mk.injEq] at h
    exact .inl ⟨hlate, h.1.symm, h.2.symm⟩
  · rcases Nat.eq_zero_or_pos job.tries with hzero | htries
    · have hnot : ¬ job.tries > 0 := by omega
      simp only [tryProposal, tryProposalWith, hindex, htasks] at h
      rw [if_neg (by omega), if_neg hnot] at h
      split at h
      · cases h
      · rename_i events' q'' hrun
        cases h
        exact .inr (.inr ⟨hle, events', rfl, hrun⟩)
    · rw [tryProposal, tryProposalWith_of_tries hindex hle htries] at h
      cases h
      exact .inr (.inl ⟨hle, htries, rfl, rfl⟩)

theorem timely_fired {trace : List (Event τ)} {job : TryProposal τ} {index : ℕ} :
    Timely (trace ++ [Event.fired job index]) ↔ Timely trace ∧ index ≤ job.index := by
  constructor
  · intro h
    exact ⟨fun job' index' hmem => h job' index' (by simp [hmem]), h job index (by simp)⟩
  · rintro ⟨htimely, hle⟩ job' index' hmem
    rcases List.mem_append.mp hmem with hmem | hmem
    · exact htimely job' index' hmem
    · rw [List.mem_singleton, Event.fired.injEq] at hmem
      obtain ⟨rfl, rfl⟩ := hmem
      exact hle

/-- The only job runs, and none is left in the scheduler. -/
theorem tryProposal_inv {trace : List (Event τ)} {paxosLog : PaxosLog κ}
    {job : TryProposal τ} {rest : List τ} (hwf : paxosLog.WellFormed)
    (hbooks : Books trace (job.task :: rest) []) (htimely : Timely trace)
    (htried : .tried job.task (some job.entry) ∈ turn trace) {index : ℕ}
    (hindex : paxosLog.nextAvailableIndex = .ok index) {inserted : List τ}
    {runs : List (TryRun τ)} {events : List (Event τ)} {q' : ProposerQueue τ κ}
    (h : ProposerQueue.tryProposal ⟨⟨[]⟩, paxosLog, job.task :: rest⟩
      { job with tries := job.tries - 1 } inserted runs = some (events, q')) :
    Inv (trace ++ Event.fired job index :: events) q' := by
  have hfired : Books (trace ++ [Event.fired job index]) (job.task :: rest) [] := hbooks.serve rfl
  rcases tryProposal_cases { job with tries := job.tries - 1 } rfl hindex h with
    ⟨hlate, rfl, rfl⟩ | ⟨hle, htries, rfl, rfl⟩ | ⟨hle, events', rfl, hrun⟩
  · have hstalled : ¬ Timely (trace ++ [Event.fired job index]) := by
      intro htimely'
      exact absurd (timely_fired.mp htimely').2 (Nat.not_le_of_lt hlate)
    exact ⟨hwf, hfired, by simp, .inr ⟨hstalled, by simp, rfl⟩⟩
  · have hproposed : Books
        (trace ++ [Event.fired job index] ++ [Event.proposed job.task job.index job.entry])
        (job.task :: rest) [] := hfired.serve rfl
    have htimely' : Timely
        (trace ++ [Event.fired job index] ++ [Event.proposed job.task job.index job.entry]) := by
      rw [Timely.append (by simp)]
      exact timely_fired.mpr ⟨htimely, hle⟩
    have hschedule : Schedule
        (trace ++ [Event.fired job index] ++ [Event.proposed job.task job.index job.entry])
        (job.task :: rest) [({ job with tries := job.tries - 1 }, PROPOSAL_WAIT_TIME)] :=
      @Schedule.waiting _ _ { job with tries := job.tries - 1 } rest htries
        (mem_turn_concat (by simp) (mem_turn_concat (by simp) htried)) (mem_turn_self (by simp))
    rw [List.append_assoc] at hproposed htimely' hschedule
    exact ⟨hwf, hproposed, by simp, .inl ⟨htimely', hschedule⟩⟩
  · obtain ⟨hpopped, hquiet⟩ := hfired.fail inserted
    have hrestarted :=
      runTask_restarted (q := ⟨⟨[]⟩, paxosLog, rest ++ inserted⟩) rfl hpopped hquiet hrun
    have htrace :
        trace ++ Event.fired job index :: (Event.failed job.task ::
          inserted.map Event.inserted ++ Event.popped job.task :: events') =
        trace ++ [Event.fired job index] ++ [Event.failed job.task] ++
          inserted.map Event.inserted ++ [Event.popped job.task] ++ events' := by simp
    rw [htrace]
    apply hrestarted.inv hwf
    rw [Timely.append (by simp), Timely.append (by simp), Timely.append (by simp)]
    exact timely_fired.mpr ⟨htimely, hle⟩

theorem Inv.step {trace : List (Event τ)} {q q' : ProposerQueue τ κ} (h : Inv trace q)
    {a : Action τ} {events : List (Event τ)} (hnext : next q a = some (events, q')) :
    Inv (trace ++ events) q' := by
  cases a with
  | tryInsert task runs => exact h.tryInsert hnext
  | fire n inserted runs =>
      obtain ⟨⟨jobs⟩, paxosLog, tasks⟩ := q
      obtain ⟨m, hm, -⟩ := h.wellFormed.nextAvailableIndex
      rcases h.phase with ⟨htimely, hschedule⟩ | ⟨-, -, hjobs⟩
      · cases hschedule with
        | idle => simp [next, TimerAsyncScheduler.fire] at hnext
        | @waiting job rest htries htried hproposed =>
            cases n with
            | zero =>
                simp only [next, TimerAsyncScheduler.fire, List.getElem?_cons_zero,
                  List.eraseIdx_cons_zero, hm] at hnext
                split at hnext
                · cases hnext
                · rename_i events' q'' htry
                  cases hnext
                  exact tryProposal_inv h.wellFormed h.books htimely htried hm htry
            | succ n => simp [next, TimerAsyncScheduler.fire] at hnext
      · dsimp only at hjobs
        subst hjobs
        simp [next, TimerAsyncScheduler.fire] at hnext
  | setEntry index entry =>
      simp only [next] at hnext
      split at hnext
      · rename_i hindex
        obtain ⟨paxosLog, calls, hset, hspec⟩ := h.wellFormed.setEntry hindex entry
        rw [hset] at hnext
        cases hnext
        rw [List.append_nil]
        exact ⟨hspec.wellFormed, h.books, h.unproposed, h.phase⟩
      · cases hnext

/-! ## Enabled steps

A step has a result as soon as one of the try callbacks returns an entry: no assertion fails
and the front of an empty queue is not used. -/

theorem removeInvalidTasks_isSome {runs : List (TryRun τ)}
    (hruns : ∃ run ∈ runs, run.result.isSome) (q : ProposerQueue τ κ) :
    (q.removeInvalidTasks runs).isSome := by
  induction runs generalizing q with
  | nil => simp at hruns
  | cons run runs ih =>
      obtain ⟨timerScheduler, paxosLog, tasks⟩ := q
      cases tasks with
      | nil => simp [removeInvalidTasks]
      | cons task rest =>
          cases hresult : run.result with
          | some entry => simp [removeInvalidTasks, hresult]
          | none =>
              have hlater : ∃ run ∈ runs, run.result.isSome := by simpa [hresult] using hruns
              obtain ⟨result, hrest⟩ := Option.isSome_iff_exists.mp
                (ih hlater ⟨timerScheduler, paxosLog, rest ++ run.inserted⟩)
              simp [removeInvalidTasks, hresult, hrest]

theorem runTask_isSome {trace : List (Event τ)} {q : ProposerQueue τ κ}
    (hwf : q.paxosLog.WellFormed) (hbooks : Books trace q.tasks [])
    (hunproposed : ¬ Proposed trace) {runs : List (TryRun τ)}
    (hruns : ∃ run ∈ runs, run.result.isSome) : (q.runTask runs).isSome := by
  obtain ⟨⟨events, entry, q'⟩, hremove⟩ :=
    Option.isSome_iff_exists.mp (removeInvalidTasks_isSome hruns q)
  have hcleaned := removeInvalidTasks_cleaned hbooks hunproposed hremove
  cases entry with
  | none => simp [runTask, hremove]
  | some value =>
      obtain ⟨task, rest, htasks, -⟩ := hcleaned.front value rfl
      rw [← hcleaned.paxosLog] at hwf
      obtain ⟨index, hindex, -⟩ := hwf.nextAvailableIndex
      simp only [runTask, hremove, htasks, hindex, tryProposalWith_first hindex]
      rfl

theorem Inv.tryInsert_isSome {trace : List (Event τ)} {q : ProposerQueue τ κ} (h : Inv trace q)
    (task : τ) {runs : List (TryRun τ)} (hruns : ∃ run ∈ runs, run.result.isSome) :
    (q.tryInsert task runs).isSome := by
  simp only [ProposerQueue.tryInsert]
  split
  · rename_i hlength
    have hempty : q.tasks = [] := by simpa using hlength
    have hquiet : ¬ Proposed (trace ++ [Event.inserted task]) := by
      rw [proposed_concat (by simp)]
      simpa [Event.isProposed] using h.unproposed hempty
    have hrun := runTask_isSome (q := { q with tasks := q.tasks ++ [task] }) h.wellFormed
      (h.books.insert task) hquiet hruns
    obtain ⟨result, hresult⟩ := Option.isSome_iff_exists.mp hrun
    rw [hresult]
    rfl
  · rfl

theorem tryProposal_isSome {q : ProposerQueue τ κ} {front : τ} {rest : List τ}
    (htasks : q.tasks = front :: rest) {next : ℕ}
    (hindex : q.paxosLog.nextAvailableIndex = .ok next) {inserted : List τ}
    {runs : List (TryRun τ)}
    (hrun : (runTask { q with tasks := rest ++ inserted } runs).isSome) (job : TryProposal τ) :
    (q.tryProposal job inserted runs).isSome := by
  obtain ⟨result, hresult⟩ := Option.isSome_iff_exists.mp hrun
  simp only [ProposerQueue.tryProposal, tryProposalWith, hindex, htasks, hresult]
  by_cases hlate : job.index < next
  · rw [if_pos hlate]
    rfl
  · rw [if_neg hlate]
    by_cases htries : job.tries > 0
    · rw [if_pos htries]
      rfl
    · rw [if_neg htries]
      rfl

theorem Inv.fire_isSome {trace : List (Event τ)} {q : ProposerQueue τ κ} (h : Inv trace q)
    {n : ℕ} (hn : n < q.timerScheduler.jobs.length) (inserted : List τ)
    {runs : List (TryRun τ)} (hruns : ∃ run ∈ runs, run.result.isSome) :
    (next q (.fire n inserted runs)).isSome := by
  obtain ⟨⟨jobs⟩, paxosLog, tasks⟩ := q
  obtain ⟨m, hm, -⟩ := h.wellFormed.nextAvailableIndex
  rcases h.phase with ⟨-, hschedule⟩ | ⟨-, -, hjobs⟩
  · cases hschedule with
    | idle => simp at hn
    | @waiting job rest htries htried hproposed =>
        obtain rfl : n = 0 := by simpa using hn
        obtain ⟨hpopped, hquiet⟩ := h.books.fail inserted
        have hrun := runTask_isSome (q := ⟨⟨[]⟩, paxosLog, rest ++ inserted⟩) h.wellFormed
          hpopped hquiet hruns
        have hfire := tryProposal_isSome (q := ⟨⟨[]⟩, paxosLog, job.task :: rest⟩) rfl hm hrun
          { job with tries := job.tries - 1 }
        obtain ⟨result, hresult⟩ := Option.isSome_iff_exists.mp hfire
        simp only [next, TimerAsyncScheduler.fire, List.getElem?_cons_zero,
          List.eraseIdx_cons_zero, hm, hresult]
        rfl
  · dsimp only at hjobs
    subst hjobs
    simp at hn

/-! ## Runs -/

theorem inv_of_run {trace : List (Event τ)} {q : ProposerQueue τ κ}
    (h : (machine τ κ).system.Run trace q) : Inv trace q := by
  refine h.invariant (I := Inv) ?_ ?_
  · intro q hq
    cases hq
    refine ⟨PaxosLog.new_wellFormed, ⟨.nil, ?_, rfl⟩, ?_, .inl ⟨?_, .idle⟩⟩
    · intro before task after heq
      simp at heq
    · intro _
      simp [Proposed, turn]
    · intro job index hmem
      cases hmem
  · intro trace q events q' _ hinv hstep
    obtain ⟨a, -, hnext⟩ := hstep
    exact hinv.step hnext

theorem enabled_of_run {trace : List (Event τ)} {q : ProposerQueue τ κ}
    (h : (machine τ κ).system.Run trace q) {runs : List (TryRun τ)}
    (hruns : ∃ run ∈ runs, run.result.isSome) :
    (∀ task, (next q (.tryInsert task runs)).isSome) ∧
      ∀ n inserted, n < q.timerScheduler.jobs.length →
        (next q (.fire n inserted runs)).isSome := by
  have hinv := inv_of_run h
  constructor
  · intro task
    exact hinv.tryInsert_isSome task hruns
  · intro n inserted hn
    exact hinv.fire_isSome hn inserted hruns

/-- The queue keeps its representation invariant, and answers its tasks. -/
structure Kept (trace : List (Event τ)) (q : ProposerQueue τ κ) : Prop where
  schedule : Schedule trace q.tasks q.timerScheduler.jobs
  /-- The tasks that have not left the queue are waiting. -/
  waiting : inserted trace = popped trace ++ q.tasks
  settled : Settled trace

/-- A run keeps the invariant exactly if none of its jobs fires after the log has passed its
index. -/
theorem kept_iff_timely {trace : List (Event τ)} {q : ProposerQueue τ κ}
    (h : (machine τ κ).system.Run trace q) : Kept trace q ↔ Timely trace := by
  have hinv := inv_of_run h
  constructor
  · intro hkept
    rcases hinv.phase with ⟨htimely, -⟩ | ⟨-, hne, hjobs⟩
    · exact htimely
    · have hschedule := hkept.schedule
      rw [hjobs] at hschedule
      exact absurd hschedule.tasks_eq_nil hne
  · intro htimely
    rcases hinv.phase with ⟨-, hschedule⟩ | ⟨hlate, -, -⟩
    · exact ⟨hschedule, hinv.books.history.entered_eq, hinv.books.settled⟩
    · exact absurd htimely hlate

/-- A task whose proposal fails after all tries, before the next one is proposed. -/
theorem kept_iff_timely_sample : ∃ (trace : List (Event ℕ)) (q : ProposerQueue ℕ Unit),
    (Kept trace q ↔ Timely trace) ∧ .failed 0 ∈ trace ∧ q.tasks = [1] := by
  obtain ⟨trace, q, hrun, hfailed, htasks⟩ := (machine ℕ Unit).exists_run
    (p := fun r => .failed 0 ∈ r.1 ∧ r.2.tasks = [1])
    [.tryInsert 0 [⟨[1], some .notSet⟩], .fire 0 [] [], .fire 0 [] [],
      .fire 0 [] [⟨[], some .notSet⟩]] (by decide +kernel)
  exact ⟨trace, q, kept_iff_timely hrun, hfailed, htasks⟩

/-- The proposal of a task succeeds: the log has got the entry when the job fires. -/
theorem succeeded_not_kept : ∃ (trace : List (Event ℕ)) (q : ProposerQueue ℕ Unit),
    (machine ℕ Unit).system.Run trace q ∧ ¬ Kept trace q := by
  obtain ⟨trace, q, hrun, htasks, hjobs⟩ := (machine ℕ Unit).exists_run
    (p := fun r => r.2.tasks = [0] ∧ r.2.timerScheduler.jobs.length = 0)
    [.tryInsert 0 [⟨[], some .reconfigFinished⟩], .setEntry 0 .reconfigFinished, .fire 0 [] []]
    (by decide +kernel)
  refine ⟨trace, q, hrun, ?_⟩
  intro hkept
  have hschedule := hkept.schedule
  rw [htasks, List.eq_nil_of_length_eq_zero hjobs] at hschedule
  exact absurd hschedule.tasks_eq_nil (by simp)

end UniversalDB.ProposerQueue
