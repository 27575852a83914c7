import UniversalDB.Library.TransitionSystem

/-! # Histories of a first-in first-out queue

A trace is read as a history of a queue: an event puts an item in at the back, serves the
item in front, takes the item in front out, or has nothing to do with the queue. -/

namespace Fifo

/-- What an event is to the queue. -/
inductive Role (α : Type*) where
  | enter (a : α)
  | serve (a : α)
  | leave (a : α)
  | other

variable {α ε : Type*}

/-- What an event does to the items in the queue. -/
inductive Turn : Role α → List α → List α → Prop where
  | enter (a : α) (queue : List α) : Turn (.enter a) queue (queue ++ [a])
  | serve (a : α) (rest : List α) : Turn (.serve a) (a :: rest) (a :: rest)
  | leave (a : α) (rest : List α) : Turn (.leave a) (a :: rest) rest
  | other (queue : List α) : Turn .other queue queue

/-- A history and the items that are in the queue after it. -/
inductive History (role : ε → Role α) : List ε → List α → Prop where
  | nil : History role [] []
  | step {trace queue e queue'} : History role trace queue → Turn (role e) queue queue' →
      History role (trace ++ [e]) queue'

/-- The item that comes in with an event. -/
def entering : Role α → Option α
  | .enter a => some a
  | _ => none

/-- The item that goes with an event. -/
def leaving : Role α → Option α
  | .leave a => some a
  | _ => none

def entered (role : ε → Role α) (trace : List ε) : List α :=
  trace.filterMap fun e => entering (role e)

def left (role : ε → Role α) (trace : List ε) : List α :=
  trace.filterMap fun e => leaving (role e)

variable {role : ε → Role α}

@[simp] theorem entered_append (trace events : List ε) :
    entered role (trace ++ events) = entered role trace ++ entered role events :=
  List.filterMap_append

@[simp] theorem left_append (trace events : List ε) :
    left role (trace ++ events) = left role trace ++ left role events :=
  List.filterMap_append

/-- Items leave in the order in which they have come, and the others are waiting. -/
theorem History.entered_eq {trace : List ε} {queue : List α} (h : History role trace queue) :
    entered role trace = left role trace ++ queue := by
  induction h with
  | nil => rfl
  | @step trace queue e queue' _ hturn ih =>
      rw [entered_append, left_append, ih]
      generalize hrole : role e = r at hturn
      cases hturn with
      | enter a queue => simp [entered, left, entering, leaving, hrole]
      | serve a rest => simp [entered, left, entering, leaving, hrole]
      | leave a rest => simp [entered, left, entering, leaving, hrole]
      | other queue => simp [entered, left, entering, leaving, hrole]

/-- Every event of a history finds the queue in some state. -/
theorem History.split {trace : List ε} {queue : List α} (h : History role trace queue)
    {before after : List ε} {e : ε} (heq : trace = before ++ e :: after) :
    ∃ queue₀ queue₁, History role before queue₀ ∧ Turn (role e) queue₀ queue₁ := by
  induction h generalizing after with
  | nil => simp at heq
  | @step trace queue e' queue' hpast hturn ih =>
      rcases concat_eq_append_cons heq with ⟨rfl, rfl, -⟩ | ⟨tail, hsplit, -⟩
      · exact ⟨queue, queue', hpast, hturn⟩
      · exact ih hsplit

/-- Service is in the order of coming: the items that have come before the one that is
served are the items that have gone. -/
theorem History.served {trace : List ε} {queue : List α} (h : History role trace queue)
    {before after : List ε} {e : ε} (heq : trace = before ++ e :: after) {a : α}
    (hrole : role e = .serve a) :
    ∃ waiting, entered role before = left role before ++ a :: waiting := by
  obtain ⟨queue₀, queue₁, hbefore, hturn⟩ := h.split heq
  rw [hrole] at hturn
  cases hturn with
  | serve a waiting => exact ⟨waiting, hbefore.entered_eq⟩

/-- Events by which items only come in. -/
theorem History.arrivals {trace : List ε} {queue : List α} (h : History role trace queue)
    {events : List ε} (hevents : ∀ e ∈ events, role e = .other ∨ ∃ a, role e = .enter a) :
    History role (trace ++ events) (queue ++ entered role events) := by
  induction events generalizing trace queue with
  | nil => simpa [entered] using h
  | cons e events ih =>
      have hrest := List.forall_mem_of_forall_mem_cons hevents
      rcases hevents e List.mem_cons_self with he | ⟨a, he⟩
      · have hfirst : History role (trace ++ [e]) queue := h.step (by rw [he]; exact .other queue)
        simpa [entered, entering, he] using ih hfirst hrest
      · have hfirst : History role (trace ++ [e]) (queue ++ [a]) :=
          h.step (by rw [he]; exact .enter a queue)
        simpa [entered, entering, he] using ih hfirst hrest

/-- Items that come one after the other. -/
theorem History.enterAll {trace : List ε} {queue : List α} (h : History role trace queue)
    (f : α → ε) (hf : ∀ a, role (f a) = .enter a) (items : List α) :
    History role (trace ++ items.map f) (queue ++ items) := by
  have hevents : ∀ e ∈ items.map f, role e = .other ∨ ∃ a, role e = .enter a := by
    intro e he
    obtain ⟨a, -, rfl⟩ := List.mem_map.mp he
    exact .inr ⟨a, hf a⟩
  have hentered : entered role (items.map f) = items := by
    simp [entered, List.filterMap_map, hf, entering]
  simpa [hentered] using h.arrivals hevents

end Fifo
