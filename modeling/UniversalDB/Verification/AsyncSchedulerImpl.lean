import UniversalDB.Library.Fifo
import UniversalDB.Model.AsyncSchedulerImpl

/-! # `AsyncSchedulerImpl` delivers in order and once

One job at a time carries the message in front of the queue, and whoever makes the queue
non-empty or leaves it so hands the next job over. -/

namespace UniversalDB.AsyncSchedulerImpl

variable {μ : Type}

def jobs (s : AsyncSchedulerImpl μ) : List μ := s.posted ++ s.inCallback ++ s.afterCallback

/-- The job that there is carries the message in front. -/
def OneJob (s : AsyncSchedulerImpl μ) : Prop := s.jobs = s.messageQueue.take 1

/-! ## Traces -/

/-- A message leaves the queue when its job takes the lock. -/
def role : Event μ → Fifo.Role μ
  | .queued message => .enter message
  | .popped message => .leave message
  | _ => .other

def queued (trace : List (Event μ)) : List μ := Fifo.entered role trace

def popped (trace : List (Event μ)) : List μ := Fifo.left role trace

/-- The messages that the callback has been run on, in this order. -/
def started (trace : List (Event μ)) : List μ :=
  trace.filterMap fun
    | .started message => some message
    | _ => none

/-- The messages on which the callback has returned, in this order. -/
def returned (trace : List (Event μ)) : List μ :=
  trace.filterMap fun
    | .returned message => some message
    | _ => none

@[simp] theorem popped_append (trace events : List (Event μ)) :
    popped (trace ++ events) = popped trace ++ popped events :=
  Fifo.left_append trace events

@[simp] theorem started_append (trace events : List (Event μ)) :
    started (trace ++ events) = started trace ++ started events :=
  List.filterMap_append

@[simp] theorem returned_append (trace events : List (Event μ)) :
    returned (trace ++ events) = returned trace ++ returned events :=
  List.filterMap_append

/-! ## The steps of a job -/

section
variable {s : AsyncSchedulerImpl μ} {message : μ} {n : ℕ}

/-- A part of a list of one element that is not empty is all of it. -/
theorem part_of_take_one {before l after queue : List μ}
    (h : before ++ l ++ after = queue.take 1) (hn : l[n]? = some message) :
    n = 0 ∧ before = [] ∧ l = [message] ∧ after = [] ∧ ∃ rest, queue = message :: rest := by
  have hlength := congrArg List.length h
  rw [List.length_append, List.length_append, List.length_take] at hlength
  have hlt : n < l.length := (List.getElem?_eq_some_iff.mp hn).1
  have hbefore : before = [] := List.eq_nil_of_length_eq_zero (by omega)
  have hafter : after = [] := List.eq_nil_of_length_eq_zero (by omega)
  obtain rfl : n = 0 := by omega
  subst hbefore hafter
  rw [List.nil_append, List.append_nil] at h
  cases queue with
  | nil =>
      rw [h] at hn
      cases hn
  | cons front rest =>
      rw [h] at hn
      cases hn
      exact ⟨rfl, rfl, h, rfl, rest, rfl⟩

theorem OneJob.of_posted (h : s.OneJob) (hn : s.posted[n]? = some message) :
    n = 0 ∧ ∃ rest, s = ⟨message :: rest, [message], [], []⟩ := by
  obtain ⟨queue, posted, inCallback, afterCallback⟩ := s
  have hjobs : [] ++ posted ++ (inCallback ++ afterCallback) = queue.take 1 := by
    simpa [OneJob, jobs] using h
  obtain ⟨hzero, -, hposted, hothers, rest, hqueue⟩ := part_of_take_one hjobs hn
  rw [List.append_eq_nil_iff] at hothers
  exact ⟨hzero, rest, by simp_all⟩

theorem OneJob.of_inCallback (h : s.OneJob) (hn : s.inCallback[n]? = some message) :
    n = 0 ∧ ∃ rest, s = ⟨message :: rest, [], [message], []⟩ := by
  obtain ⟨queue, posted, inCallback, afterCallback⟩ := s
  obtain ⟨hzero, hposted, hcallback, hothers, rest, hqueue⟩ := part_of_take_one h hn
  exact ⟨hzero, rest, by simp_all⟩

theorem OneJob.of_afterCallback (h : s.OneJob) (hn : s.afterCallback[n]? = some message) :
    n = 0 ∧ ∃ rest, s = ⟨message :: rest, [], [], [message]⟩ := by
  obtain ⟨queue, posted, inCallback, afterCallback⟩ := s
  have hjobs : (posted ++ inCallback) ++ afterCallback ++ [] = queue.take 1 := by
    simpa [OneJob, jobs] using h
  obtain ⟨hzero, hothers, hcallback, -, rest, hqueue⟩ := part_of_take_one hjobs hn
  rw [List.append_eq_nil_iff] at hothers
  exact ⟨hzero, rest, by simp_all⟩

end

/-- A message that finds the queue empty finds no job, and gets one. -/
theorem queueMessage_oneJob {s : AsyncSchedulerImpl μ} (h : s.OneJob) (message : μ) :
    (s.queueMessage message).OneJob := by
  obtain ⟨queue, posted, inCallback, afterCallback⟩ := s
  cases queue with
  | nil => simp_all [OneJob, jobs, queueMessage, scheduleAsync]
  | cons front rest => simpa [OneJob, jobs, queueMessage] using h

@[simp] theorem queueMessage_queue (s : AsyncSchedulerImpl μ) (message : μ) :
    (s.queueMessage message).messageQueue = s.messageQueue ++ [message] := by
  simp only [queueMessage]
  split <;> rfl

@[simp] theorem queueMessage_inCallback (s : AsyncSchedulerImpl μ) (message : μ) :
    (s.queueMessage message).inCallback = s.inCallback := by
  simp only [queueMessage]
  split <;> rfl

@[simp] theorem queueMessage_afterCallback (s : AsyncSchedulerImpl μ) (message : μ) :
    (s.queueMessage message).afterCallback = s.afterCallback := by
  simp only [queueMessage]
  split <;> rfl

/-- What the steps of a scheduler with its job are. -/
inductive Move : AsyncSchedulerImpl μ → List (Event μ) → AsyncSchedulerImpl μ → Prop where
  | queue (s : AsyncSchedulerImpl μ) (message : μ) :
      Move s [.queued message] (s.queueMessage message)
  | start (message : μ) (rest : List μ) :
      Move ⟨message :: rest, [message], [], []⟩ [.started message]
        ⟨message :: rest, [], [message], []⟩
  | finish (message : μ) (rest : List μ) :
      Move ⟨message :: rest, [], [message], []⟩ [.returned message]
        ⟨message :: rest, [], [], [message]⟩
  | pop (message : μ) (rest : List μ) :
      Move ⟨message :: rest, [], [], [message]⟩ [.popped message]
        ⟨rest, rest.take 1, [], []⟩

theorem move_of_next {s s' : AsyncSchedulerImpl μ} (h : s.OneJob) {a : Action μ}
    {events : List (Event μ)} (hnext : next s a = some (events, s')) : Move s events s' := by
  cases a with
  | queueMessage message =>
      cases hnext
      exact .queue s message
  | start n =>
      simp only [next] at hnext
      split at hnext
      · cases hnext
      · rename_i message hn
        obtain ⟨rfl, rest, rfl⟩ := h.of_posted hn
        cases hnext
        exact .start message rest
  | finish n =>
      simp only [next] at hnext
      split at hnext
      · cases hnext
      · rename_i message hn
        obtain ⟨rfl, rest, rfl⟩ := h.of_inCallback hn
        cases hnext
        exact .finish message rest
  | pop n =>
      simp only [next] at hnext
      split at hnext
      · cases hnext
      · rename_i message hn
        obtain ⟨rfl, rest, rfl⟩ := h.of_afterCallback hn
        cases rest with
        | nil =>
            cases hnext
            exact .pop message []
        | cons front rest =>
            cases hnext
            exact .pop message (front :: rest)

theorem Move.oneJob {s s' : AsyncSchedulerImpl μ} {events : List (Event μ)}
    (hmove : Move s events s') (h : s.OneJob) : s'.OneJob := by
  cases hmove with
  | queue _ message => exact queueMessage_oneJob h message
  | start message rest => rfl
  | finish message rest => rfl
  | pop message rest => simp [OneJob, jobs]

/-! ## Runs -/

/-- What carries the order of delivery over a step. -/
structure Inv (trace : List (Event μ)) (s : AsyncSchedulerImpl μ) : Prop where
  job : s.OneJob
  history : Fifo.History role trace s.messageQueue
  begun : started trace = popped trace ++ (s.inCallback ++ s.afterCallback)
  ended : returned trace = popped trace ++ s.afterCallback
  defined : .popOfEmpty ∉ trace

/-- What `f` counts is ahead of the popped messages by those that are under way. -/
theorem ahead_append {f : List (Event μ) → List μ}
    (hf : ∀ trace events, f (trace ++ events) = f trace ++ f events)
    {trace events : List (Event μ)} {underway underway' : List μ}
    (h : f trace = popped trace ++ underway)
    (hevents : underway ++ f events = popped events ++ underway') :
    f (trace ++ events) = popped (trace ++ events) ++ underway' := by
  rw [hf, popped_append, h, List.append_assoc, hevents, List.append_assoc]

theorem Inv.move {trace events : List (Event μ)} {s s' : AsyncSchedulerImpl μ}
    (h : Inv trace s) (hmove : Move s events s') : Inv (trace ++ events) s' := by
  have hjob := hmove.oneJob h.job
  obtain ⟨-, hhistory, hbegun, hended, hdefined⟩ := h
  cases hmove with
  | queue _ message =>
      refine ⟨hjob, ?_, ?_, ?_, by simpa using hdefined⟩
      · rw [queueMessage_queue]
        exact hhistory.step (.enter message s.messageQueue)
      · rw [queueMessage_inCallback, queueMessage_afterCallback]
        exact ahead_append started_append hbegun (List.append_nil _)
      · rw [queueMessage_afterCallback]
        exact ahead_append returned_append hended (List.append_nil _)
  | start message rest =>
      exact ⟨hjob, hhistory.step (.other (message :: rest)),
        ahead_append started_append hbegun rfl, ahead_append returned_append hended rfl,
        by simpa using hdefined⟩
  | finish message rest =>
      exact ⟨hjob, hhistory.step (.other (message :: rest)),
        ahead_append started_append hbegun rfl, ahead_append returned_append hended rfl,
        by simpa using hdefined⟩
  | pop message rest =>
      exact ⟨hjob, hhistory.step (.leave message rest),
        ahead_append started_append hbegun rfl, ahead_append returned_append hended rfl,
        by simpa using hdefined⟩

theorem inv_of_run {trace : List (Event μ)} {s : AsyncSchedulerImpl μ}
    (h : (machine μ).system.Run trace s) : Inv trace s := by
  refine h.invariant (I := Inv) ?_ ?_
  · intro s hs
    cases hs
    exact ⟨rfl, .nil, rfl, rfl, List.not_mem_nil⟩
  · intro trace s events s' _ hinv hstep
    obtain ⟨a, -, hnext⟩ := hstep
    exact hinv.move (move_of_next hinv.job hnext)

/-- Messages are delivered in the order in which they are queued, each once and one after
the other. -/
structure InOrder (trace : List (Event μ)) (s : AsyncSchedulerImpl μ) : Prop where
  /-- There is at most one job, it is there if and only if the queue is not empty, and it
  carries the message in front. -/
  job : s.posted ++ s.inCallback ++ s.afterCallback = s.messageQueue.take 1
  /-- Nothing is popped from an empty queue. -/
  defined : .popOfEmpty ∉ trace
  /-- When the callback is run on a message, it has been run on the messages that have
  been queued before it, on each of them once, and has returned every time. -/
  turn : ∀ before message after, trace = before ++ .started message :: after →
    returned before = started before ∧
      ∃ later, queued before = started before ++ message :: later
  /-- What the callback has not been run on yet is in the queue. -/
  waiting : queued trace =
    started trace ++ s.messageQueue.drop (s.inCallback ++ s.afterCallback).length

/-- The message of a job that has started is in front. -/
theorem OneJob.callback_front {s : AsyncSchedulerImpl μ} (h : s.OneJob) :
    s.inCallback ++ s.afterCallback <+: s.messageQueue := by
  cases hposted : s.posted with
  | nil =>
      have hjobs : s.inCallback ++ s.afterCallback = s.messageQueue.take 1 := by
        simpa [OneJob, jobs, hposted] using h
      rw [hjobs]
      exact List.take_prefix 1 s.messageQueue
  | cons message others =>
      have hn : s.posted[0]? = some message := by rw [hposted]; rfl
      obtain ⟨-, rest, rfl⟩ := h.of_posted hn
      exact List.nil_prefix

theorem Inv.waiting {trace : List (Event μ)} {s : AsyncSchedulerImpl μ} (h : Inv trace s) :
    queued trace =
      started trace ++ s.messageQueue.drop (s.inCallback ++ s.afterCallback).length := by
  have hfront := List.prefix_iff_eq_append.mp h.job.callback_front
  rw [h.begun, List.append_assoc, hfront]
  exact h.history.entered_eq

/-- The callback is started by a step that finds its message in front. -/
theorem Inv.turn {trace events : List (Event μ)} {s s' : AsyncSchedulerImpl μ}
    (h : Inv trace s) (hmove : Move s events s') {pre post : List (Event μ)} {message : μ}
    (heq : events = pre ++ .started message :: post) :
    pre = [] ∧ returned trace = started trace ∧
      ∃ later, queued trace = started trace ++ message :: later := by
  cases hmove with
  | queue _ message' => simp [List.singleton_eq_append_iff] at heq
  | start message' rest =>
      obtain ⟨-, hhistory, hbegun, hended, -⟩ := h
      simp only [List.singleton_eq_append_iff, List.cons.injEq, Event.started.injEq] at heq
      have hpre : pre = [] ∧ message = message' := by
        rcases heq with ⟨rfl, rfl, -⟩ | ⟨-, hnil⟩
        · exact ⟨rfl, rfl⟩
        · cases hnil
      obtain ⟨rfl, rfl⟩ := hpre
      refine ⟨rfl, ?_, rest, ?_⟩
      · rw [hbegun, hended]
        rfl
      · rw [hbegun, List.append_nil, List.append_nil]
        exact hhistory.entered_eq
  | finish message' rest => simp [List.singleton_eq_append_iff] at heq
  | pop message' rest => simp [List.singleton_eq_append_iff] at heq

theorem inOrder_of_run {trace : List (Event μ)} {s : AsyncSchedulerImpl μ}
    (h : (machine μ).system.Run trace s) : InOrder trace s := by
  have hinv := inv_of_run h
  refine ⟨hinv.job, hinv.defined, ?_, hinv.waiting⟩
  intro before message after heq
  obtain ⟨past, s₀, events, s₁, pre, post, hpast, ⟨a, -, hnext⟩, hevents, hbefore⟩ := h.split heq
  have hinv₀ := inv_of_run hpast
  obtain ⟨rfl, hreturned, hqueued⟩ :=
    hinv₀.turn (move_of_next hinv₀.job hnext) hevents
  rw [List.append_nil] at hbefore
  subst hbefore
  exact ⟨hreturned, hqueued⟩

/-- The callback queues a message on its own while another thread does so, too. -/
theorem inOrder_of_run_sample : ∃ (trace : List (Event ℕ)) (s : AsyncSchedulerImpl ℕ),
    InOrder trace s ∧ queued trace = [0, 1, 2] ∧ started trace = [0, 1] := by
  obtain ⟨trace, s, hrun, hqueued, hstarted⟩ := (machine ℕ).exists_run
    (p := fun r => queued r.1 = [0, 1, 2] ∧ started r.1 = [0, 1])
    [.queueMessage 0, .start 0, .queueMessage 1, .finish 0, .queueMessage 2, .pop 0, .start 0]
    (by decide +kernel)
  exact ⟨trace, s, inOrder_of_run hrun, hqueued, hstarted⟩

end UniversalDB.AsyncSchedulerImpl
