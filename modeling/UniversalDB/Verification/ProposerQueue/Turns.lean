import UniversalDB.Library.Fifo
import UniversalDB.Model.ProposerQueue

/-! # The turns of the tasks of `ProposerQueue`

The turn of a task lasts until it is popped. A trace is a history of a first-in first-out
queue, in which a turn with a proposal ends with one answer. -/

namespace UniversalDB.ProposerQueue

variable {τ : Type}

/-! ## Traces -/

def role : Event τ → Fifo.Role τ
  | .inserted task => .enter task
  | .tried task _ => .serve task
  | .proposed task _ _ => .serve task
  | .fired job _ => .serve job.task
  | .succeeded task => .serve task
  | .failed task => .serve task
  | .popped task => .leave task

/-- The tasks that have been inserted, in this order. -/
def inserted (trace : List (Event τ)) : List τ := Fifo.entered role trace

/-- The tasks that have left the queue, in this order. -/
def popped (trace : List (Event τ)) : List τ := Fifo.left role trace

def Event.isProposed : Event τ → Bool
  | .proposed .. => true
  | _ => false

/-- A call of the success or of the failure callback. -/
def Event.isAnswer : Event τ → Bool
  | .succeeded _ => true
  | .failed _ => true
  | _ => false

/-- One event more in the turn of a task, which ends when the task is popped. -/
def turnAfter (turn : List (Event τ)) : Event τ → List (Event τ)
  | .popped _ => []
  | e => turn ++ [e]

/-- The events of the turn of the task in front. -/
def turn (trace : List (Event τ)) : List (Event τ) := trace.foldl turnAfter []

@[simp] theorem turn_concat (trace : List (Event τ)) (e : Event τ) :
    turn (trace ++ [e]) = turnAfter (turn trace) e := by
  simp [turn]

/-- The task in front has been proposed. -/
def Proposed (trace : List (Event τ)) : Prop := (turn trace).any Event.isProposed

/-- The answers that have been given in the turn of the task in front. -/
def answers (trace : List (Event τ)) : List (Event τ) := (turn trace).filter Event.isAnswer

/-- A task that is popped after a proposal has got one answer. -/
def Settled (trace : List (Event τ)) : Prop :=
  ∀ before task after, trace = before ++ .popped task :: after → Proposed before →
    answers before = [.succeeded task] ∨ answers before = [.failed task]

theorem Settled.concat {trace : List (Event τ)} (h : Settled trace) {e : Event τ}
    (he : ∀ task, e = .popped task → Proposed trace →
      answers trace = [.succeeded task] ∨ answers trace = [.failed task]) :
    Settled (trace ++ [e]) := by
  intro before task after heq
  rcases concat_eq_append_cons heq with ⟨rfl, rfl, -⟩ | ⟨tail, hsplit, -⟩
  · exact he task rfl
  · exact h before task tail hsplit

/-- The books of a queue, with the answers for the task in front. -/
structure Books (trace : List (Event τ)) (tasks : List τ) (given : List (Event τ)) : Prop where
  history : Fifo.History role trace tasks
  settled : Settled trace
  answers : answers trace = given

/-! ## What single calls do to the books -/

section
variable {trace : List (Event τ)} {task : τ} {tasks rest : List τ}
  {given : List (Event τ)}

theorem proposed_concat {e : Event τ} (he : ∀ task, e ≠ .popped task) :
    Proposed (trace ++ [e]) ↔ Proposed trace ∨ e.isProposed := by
  cases e with
  | popped task => exact absurd rfl (he task)
  | _ => simp [Proposed, turnAfter]

theorem mem_turn_concat {e e' : Event τ} (he : ∀ task, e ≠ .popped task)
    (hmem : e' ∈ turn trace) : e' ∈ turn (trace ++ [e]) := by
  cases e with
  | popped task => exact absurd rfl (he task)
  | _ => simp [turnAfter, hmem]

theorem mem_turn_self {e : Event τ} (he : ∀ task, e ≠ .popped task) :
    e ∈ turn (trace ++ [e]) := by
  cases e with
  | popped task => exact absurd rfl (he task)
  | _ => simp [turnAfter]

theorem Books.insert (h : Books trace tasks given) (task : τ) :
    Books (trace ++ [Event.inserted task]) (tasks ++ [task]) given where
  history := h.history.step (.enter task tasks)
  settled := h.settled.concat (by simp)
  answers := by
    have hanswers := h.answers
    simpa [ProposerQueue.answers, turnAfter, Event.isAnswer] using hanswers

/-- A call for the task in front. -/
theorem Books.serve (h : Books trace (task :: rest) given) {e : Event τ}
    (hrole : role e = .serve task) :
    Books (trace ++ [e]) (task :: rest) (given ++ [e].filter Event.isAnswer) := by
  have hpop : ∀ task', e ≠ .popped task' := by
    rintro task' rfl
    cases hrole
  constructor
  · refine h.history.step ?_
    rw [hrole]
    exact .serve task rest
  · apply h.settled.concat
    intro task' heq
    exact absurd heq (hpop task')
  · rw [← h.answers]
    cases e with
    | popped task' => exact absurd rfl (hpop task')
    | _ => simp [ProposerQueue.answers, turnAfter]

/-- A new turn begins. -/
theorem Books.pop (h : Books trace (task :: rest) given)
    (hsettled : Proposed trace → given = [.succeeded task] ∨ given = [.failed task]) :
    Books (trace ++ [Event.popped task]) rest [] ∧ ¬ Proposed (trace ++ [Event.popped task]) := by
  refine ⟨⟨h.history.step (.leave task rest), ?_, ?_⟩, ?_⟩
  · apply h.settled.concat
    rintro task' heq hproposed
    cases heq
    rw [h.answers]
    exact hsettled hproposed
  · simp [ProposerQueue.answers, turnAfter]
  · simp [Proposed, turnAfter]

theorem Books.insertAll (h : Books trace tasks given) (items : List τ) :
    Books (trace ++ items.map Event.inserted) (tasks ++ items) given ∧
      (Proposed (trace ++ items.map Event.inserted) ↔ Proposed trace) := by
  induction items generalizing trace tasks with
  | nil => simpa using h
  | cons item items ih =>
      obtain ⟨hbooks, hproposed⟩ := ih (h.insert item)
      rw [proposed_concat (by simp)] at hproposed
      constructor
      · simpa using hbooks
      · simpa [Event.isProposed] using hproposed

/-- A run of the try callback of the task in front. -/
theorem Books.tryRun (h : Books trace (task :: rest) []) (hunproposed : ¬ Proposed trace)
    (items : List τ) (result : Option PaxosLogEntry) :
    Books (trace ++ items.map Event.inserted ++ [Event.tried task result])
        (task :: rest ++ items) [] ∧
      ¬ Proposed (trace ++ items.map Event.inserted ++ [Event.tried task result]) := by
  obtain ⟨hinserted, hsame⟩ := h.insertAll items
  refine ⟨hinserted.serve rfl, ?_⟩
  rw [proposed_concat (by simp), hsame]
  simpa [Event.isProposed] using hunproposed

/-- The end of the turn of a task that fails. -/
theorem Books.fail (h : Books trace (task :: rest) []) (items : List τ) :
    Books (trace ++ [Event.failed task] ++ items.map Event.inserted ++ [Event.popped task])
        (rest ++ items) [] ∧
      ¬ Proposed
        (trace ++ [Event.failed task] ++ items.map Event.inserted ++ [Event.popped task]) := by
  have hfailed : Books (trace ++ [Event.failed task]) (task :: rest) [.failed task] := h.serve rfl
  obtain ⟨hinserted, -⟩ := hfailed.insertAll items
  exact hinserted.pop fun _ => .inr rfl

end

end UniversalDB.ProposerQueue
