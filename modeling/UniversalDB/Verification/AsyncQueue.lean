import UniversalDB.Library.Fifo
import UniversalDB.Model.AsyncQueue

/-! # `AsyncQueue` runs its tasks one after the other

The trace is a history of a first-in first-out queue in which a task is served as long as
it has not returned `TERMINATE`. -/

namespace UniversalDB.AsyncQueue

variable {τ : Type}

def role : Event τ → Fifo.Role τ
  | .added callback => .enter callback
  | .started callback => .serve callback
  | .returned callback wait => if wait = TERMINATE then .leave callback else .serve callback
  | .frontOfEmpty => .other

/-- The tasks that have been added, in this order. -/
def added (trace : List (Event τ)) : List τ := Fifo.entered role trace

/-- The tasks that have returned `TERMINATE`, in this order. -/
def terminated (trace : List (Event τ)) : List τ := Fifo.left role trace

/-! ## Steps -/

theorem addTask_of_ne_nil {q : AsyncQueue τ} (h : q.callbacks ≠ []) (callback : τ) :
    q.addTask callback = { q with callbacks := q.callbacks ++ [callback] } := by
  have hlength : q.callbacks.length ≠ 0 := by simpa using h
  simp [addTask, hlength]

/-- A task that adds others does not schedule anything. -/
theorem addTasks_of_ne_nil {q : AsyncQueue τ} (h : q.callbacks ≠ []) (callbacks : List τ) :
    callbacks.foldl addTask q = { q with callbacks := q.callbacks ++ callbacks } := by
  induction callbacks generalizing q with
  | nil => simp
  | cons callback callbacks ih =>
      rw [List.foldl_cons, addTask_of_ne_nil h, ih (by simp)]
      simp

/-- The jobs of a queue between two steps. -/
def OneTimer (q : AsyncQueue τ) : Prop :=
  q.timerScheduler.jobs.length = if q.callbacks = [] then 0 else 1

theorem addTask_oneTimer {q : AsyncQueue τ} (h : q.OneTimer) (callback : τ) :
    (q.addTask callback).OneTimer ∧
      (q.addTask callback).callbacks = q.callbacks ++ [callback] := by
  cases hq : q.callbacks with
  | nil => simp_all [OneTimer, addTask, TimerAsyncScheduler.scheduleOnce]
  | cons front rest =>
      rw [addTask_of_ne_nil (by simp [hq])]
      simp_all [OneTimer]

/-- The events of a run of the front task. -/
def runEvents (callback : τ) (outcome : Outcome τ) : List (Event τ) :=
  .started callback :: outcome.added.map .added ++ [.returned callback outcome.wait]

/-- What is left of the queue when its front task has run. -/
def callbacksAfter (callback : τ) (rest : List τ) (outcome : Outcome τ) : List τ :=
  if outcome.wait = TERMINATE then rest ++ outcome.added
  else callback :: rest ++ outcome.added

/-- A run in a queue whose only job has just fired. -/
theorem runTask_oneTimer (callback : τ) (rest : List τ) (outcome : Outcome τ) :
    ∃ q' : AsyncQueue τ,
      runTask ⟨callback :: rest, .empty⟩ outcome = (runEvents callback outcome, q') ∧
      q'.OneTimer ∧ q'.callbacks = callbacksAfter callback rest outcome := by
  simp only [runTask]
  rw [addTasks_of_ne_nil (List.cons_ne_nil _ _)]
  by_cases hwait : outcome.wait = TERMINATE
  · cases hrest : rest ++ outcome.added with
    | nil =>
        simp [hwait, hrest, runEvents, OneTimer, callbacksAfter, TimerAsyncScheduler.empty]
    | cons front waiting =>
        simp [hwait, hrest, runEvents, OneTimer, callbacksAfter, TimerAsyncScheduler.empty,
          TimerAsyncScheduler.scheduleOnce]
  · simp [hwait, runEvents, OneTimer, callbacksAfter, TimerAsyncScheduler.empty,
      TimerAsyncScheduler.scheduleOnce]

/-- What a step can do to a queue with its timer. -/
theorem next_cases {q q' : AsyncQueue τ} (h : q.OneTimer) {a : Action τ}
    {events : List (Event τ)} (hnext : next q a = some (events, q')) :
    q'.OneTimer ∧
      ((∃ callback, events = [.added callback] ∧
          q'.callbacks = q.callbacks ++ [callback]) ∨
        ∃ callback rest outcome, q.callbacks = callback :: rest ∧
          events = runEvents callback outcome ∧
          q'.callbacks = callbacksAfter callback rest outcome) := by
  cases a with
  | addTask callback =>
      simp only [next, Option.some.injEq, Prod.mk.injEq] at hnext
      obtain ⟨rfl, rfl⟩ := hnext
      obtain ⟨htimer, hcallbacks⟩ := addTask_oneTimer h callback
      exact ⟨htimer, .inl ⟨callback, rfl, hcallbacks⟩⟩
  | fire n outcome =>
      obtain ⟨callbacks, ⟨jobs⟩⟩ := q
      cases callbacks with
      | nil =>
          simp only [OneTimer, if_true, List.length_eq_zero_iff] at h
          subst h
          simp [next, TimerAsyncScheduler.fire] at hnext
      | cons callback rest =>
          simp only [OneTimer, List.cons_ne_nil, if_false, List.length_eq_one_iff] at h
          obtain ⟨job, rfl⟩ := h
          obtain ⟨q'', hrun, htimer, hcallbacks⟩ := runTask_oneTimer callback rest outcome
          cases n with
          | zero =>
              simp only [next, TimerAsyncScheduler.fire, List.getElem?_cons_zero,
                List.eraseIdx_cons_zero, Option.some.injEq] at hnext
              change runTask ⟨callback :: rest, .empty⟩ outcome = _ at hnext
              rw [hrun, Prod.mk.injEq] at hnext
              obtain ⟨rfl, rfl⟩ := hnext
              exact ⟨htimer, .inr ⟨callback, rest, outcome, rfl, rfl, hcallbacks⟩⟩
          | succ n => simp [next, TimerAsyncScheduler.fire] at hnext

/-! ## Runs -/

/-- A run serves the task in front and adds behind the others. -/
theorem run_history {trace : List (Event τ)} {callback : τ} {rest : List τ}
    (h : Fifo.History role trace (callback :: rest)) (outcome : Outcome τ) :
    Fifo.History role (trace ++ runEvents callback outcome)
      (callbacksAfter callback rest outcome) := by
  have hstarted : Fifo.History role (trace ++ [.started callback]) (callback :: rest) :=
    h.step (.serve callback rest)
  have hadded := hstarted.enterAll Event.added (fun _ => rfl) outcome.added
  have hreturned : Fifo.Turn (role (.returned callback outcome.wait))
      (callback :: rest ++ outcome.added) (callbacksAfter callback rest outcome) := by
    by_cases hwait : outcome.wait = TERMINATE
    · simp only [role, callbacksAfter, hwait, if_true]
      exact .leave callback (rest ++ outcome.added)
    · simp only [role, callbacksAfter, hwait, if_false]
      exact .serve callback (rest ++ outcome.added)
  simpa [runEvents] using hadded.step hreturned

/-- A run that has started returns before anything else happens than the adding of
tasks. -/
def Returns (trace : List (Event τ)) : Prop :=
  ∀ before callback after, trace = before ++ .started callback :: after →
    ∃ (items : List τ) (wait : ℤ) (rest : List (Event τ)),
      after = items.map .added ++ .returned callback wait :: rest

theorem Returns.append {trace events : List (Event τ)} (h : Returns trace)
    (hevents : Returns events) : Returns (trace ++ events) := by
  intro before callback after heq
  rcases append_eq_append_cons heq with ⟨pre, -, hsplit⟩ | ⟨tail, hsplit, hafter⟩
  · exact hevents pre callback after hsplit
  · obtain ⟨items, wait, rest, htail⟩ := h before callback tail hsplit
    exact ⟨items, wait, rest ++ events, by simp [hafter, htail]⟩

theorem returns_added (callback : τ) : Returns [.added callback] := by
  intro before callback' after heq
  cases before with
  | nil => simp at heq
  | cons e before => simp at heq

theorem returns_run (callback : τ) (outcome : Outcome τ) :
    Returns (runEvents callback outcome) := by
  intro before callback' after heq
  cases before with
  | nil =>
      simp only [runEvents, List.cons_append, List.nil_append, List.cons.injEq,
        Event.started.injEq] at heq
      obtain ⟨rfl, rfl⟩ := heq
      exact ⟨outcome.added, outcome.wait, [], rfl⟩
  | cons e before =>
      have hmem : .started callback' ∈
          outcome.added.map Event.added ++ [.returned callback outcome.wait] := by
        simp only [runEvents, List.cons_append, List.cons.injEq] at heq
        simp [heq.2]
      simp at hmem

/-- Tasks are run one after the other, each until it returns `TERMINATE`. -/
structure Serial (trace : List (Event τ)) (q : AsyncQueue τ) : Prop where
  /-- A job is scheduled if and only if the queue has a task, and then there is one. -/
  timer : q.timerScheduler.jobs.length = if q.callbacks = [] then 0 else 1
  /-- The front of an empty queue is not read. -/
  defined : .frontOfEmpty ∉ trace
  /-- The tasks that have returned `TERMINATE` are the first ones that have been added,
  and the others are waiting. -/
  waiting : added trace = terminated trace ++ q.callbacks
  /-- When a task is run, the ones that have been added before it are the ones that have
  returned `TERMINATE`, each of them once, and it has not. -/
  turn : ∀ before callback after, trace = before ++ .started callback :: after →
    ∃ later, added before = terminated before ++ callback :: later
  returns : Returns trace

/-- What carries `Serial` over a step. -/
structure Inv (trace : List (Event τ)) (q : AsyncQueue τ) : Prop where
  timer : q.OneTimer
  history : Fifo.History role trace q.callbacks
  defined : .frontOfEmpty ∉ trace
  returns : Returns trace

theorem Inv.step {trace events : List (Event τ)} {q q' : AsyncQueue τ} (h : Inv trace q)
    {a : Action τ} (hnext : next q a = some (events, q')) : Inv (trace ++ events) q' := by
  obtain ⟨htimer, ⟨callback, rfl, hcallbacks⟩ | ⟨callback, rest, outcome, hq, rfl, hcallbacks⟩⟩ :=
    next_cases h.timer hnext
  · refine ⟨htimer, ?_, ?_, h.returns.append (returns_added callback)⟩
    · rw [hcallbacks]
      exact h.history.step (.enter callback q.callbacks)
    · simpa using h.defined
  · refine ⟨htimer, ?_, ?_, h.returns.append (returns_run callback outcome)⟩
    · rw [hcallbacks]
      exact run_history (hq ▸ h.history) outcome
    · simpa [runEvents] using h.defined

theorem inv_of_run {trace : List (Event τ)} {q : AsyncQueue τ}
    (h : (machine τ).system.Run trace q) : Inv trace q := by
  refine h.invariant (I := Inv) ?_ ?_
  · intro q hq
    cases hq
    refine ⟨rfl, .nil, List.not_mem_nil, ?_⟩
    intro before callback after heq
    simp at heq
  · intro trace q events q' _ hinv hstep
    obtain ⟨a, -, hnext⟩ := hstep
    exact hinv.step hnext

theorem serial_of_run {trace : List (Event τ)} {q : AsyncQueue τ}
    (h : (machine τ).system.Run trace q) : Serial trace q := by
  have hinv := inv_of_run h
  refine ⟨hinv.timer, hinv.defined, hinv.history.entered_eq, ?_, hinv.returns⟩
  intro before callback after heq
  exact hinv.history.served heq rfl

/-- A task that is run twice and adds another one meanwhile. -/
theorem serial_of_run_sample : ∃ (trace : List (Event ℕ)) (q : AsyncQueue ℕ),
    Serial trace q ∧ added trace = [0, 1] ∧ terminated trace = [0] := by
  obtain ⟨trace, q, hrun, hadded, hterminated⟩ := (machine ℕ).exists_run
    (p := fun r => added r.1 = [0, 1] ∧ terminated r.1 = [0])
    [.addTask 0, .fire 0 ⟨[1], 5⟩, .fire 0 ⟨[], TERMINATE⟩] (by decide +kernel)
  exact ⟨trace, q, serial_of_run hrun, hadded, hterminated⟩

end UniversalDB.AsyncQueue
