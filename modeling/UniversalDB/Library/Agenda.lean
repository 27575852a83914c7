import UniversalDB.Library.OrderedMultimap

/-! # Simulated time

Callbacks wait for their times. A callback whose time has come is taken out and runs in a
world that all callbacks share, and it may schedule further callbacks, each with a wait
from the current time on. -/

/-- The callbacks that are waiting, by their times. -/
structure Agenda (σ β : Type*) where
  world : σ
  pending : OrderedMultimap ℤ β

namespace Agenda

open List OrderedMultimap

variable {σ β : Type*}

/-- What a callback makes of the world, and what it schedules with which waits. -/
abbrev Behaviour (σ β : Type*) := σ → β → σ × List (β × ℤ)

/-- `erased` says that the run of an entry is over. -/
inductive Event (β : Type*) where
  | scheduled (entry : Entry ℤ β)
  | ran (time : ℤ) (entry : Entry ℤ β)
  | erased (entry : Entry ℤ β)
deriving DecidableEq, Repr

/-- Callbacks are scheduled one after the other. -/
def plan (time : ℤ) (m : OrderedMultimap ℤ β) :
    List (β × ℤ) → List (Event β) × OrderedMultimap ℤ β
  | [] => ([], m)
  | (callback, wait) :: calls =>
      let (events, m') := plan time (m.insert (time + wait) callback) calls
      (.scheduled (m.newEntry (time + wait) callback) :: events, m')

/-- The first entry, which is `x`, is taken out and runs. -/
def serve (run : Behaviour σ β) (time : ℤ) (a : Agenda σ β) (x : Entry ℤ β) :
    List (Event β) × Agenda σ β :=
  let (world, calls) := run a.world x.value
  let (events, pending) := plan time a.pending.tail calls
  (.ran time x :: events ++ [.erased x], ⟨world, pending⟩)

/-- Entries are served until none is due. No callback may ask for a negative wait. -/
inductive Drain (run : Behaviour σ β) (time : ℤ) :
    Agenda σ β → List (Event β) → Agenda σ β → Prop where
  | stop {a} : (∀ x ∈ a.pending.entries, time < x.key) → Drain run time a [] a
  | serve {a x rest events b} : a.pending.entries = x :: rest → x.key ≤ time →
      (∀ call ∈ (run a.world x.value).2, 0 ≤ call.2) →
      Drain run time (a.serve run time x).2 events b →
      Drain run time a ((a.serve run time x).1 ++ events) b

/-- Time goes on one by one, and each time all entries that are due are served. -/
inductive Advance (run : Behaviour σ β) :
    ℤ → Agenda σ β → ℕ → List (Event β) → Agenda σ β → Prop where
  | zero {time a} : Advance run time a 0 [] a
  | succ {time a events b n rest c} : Drain run (time + 1) a events b →
      Advance run (time + 1) b n rest c → Advance run time a (n + 1) (events ++ rest) c

variable {run : Behaviour σ β}

/-- Nothing comes in before an entry that is due. -/
theorem plan_of_first {time : ℤ} {m : OrderedMultimap ℤ β} {x : Entry ℤ β}
    {rest : List (Entry ℤ β)} (hentries : m.entries = x :: rest) (hdue : x.key ≤ time)
    {calls : List (β × ℤ)} (hcalls : ∀ call ∈ calls, 0 ≤ call.2) :
    (plan time m calls).1 = (plan time m.tail calls).1 ∧
      (∃ rest', (plan time m calls).2.entries = x :: rest') ∧
      (plan time m calls).2.tail = (plan time m.tail calls).2 := by
  induction calls generalizing m rest with
  | nil => exact ⟨rfl, ⟨rest, hentries⟩, rfl⟩
  | cons call calls ih =>
      obtain ⟨callback, wait⟩ := call
      have hwait : 0 ≤ wait := hcalls (callback, wait) List.mem_cons_self
      have hkey : x.key ≤ time + wait := by omega
      obtain ⟨hevents, hfirst, htail⟩ := ih (entries_insert_of_le hentries hkey callback)
        (List.forall_mem_of_forall_mem_cons hcalls)
      rw [tail_insert_of_le hentries hkey] at hevents htail
      exact ⟨congrArg (List.cons _) hevents, hfirst, htail⟩

/-! ## Time that passes -/

theorem Drain.unique {time : ℤ} {a b b' : Agenda σ β} {events events' : List (Event β)}
    (h : Drain run time a events b) (h' : Drain run time a events' b') :
    events = events' ∧ b = b' := by
  induction h generalizing events' with
  | @stop a hnone =>
      cases h' with
      | stop _ => exact ⟨rfl, rfl⟩
      | @serve _ x _ _ _ hentries hdue _ _ =>
          exact absurd hdue (hnone x (by simp [hentries])).not_ge
  | @serve a x rest events b hentries hdue _ _ ih =>
      cases h' with
      | stop hnone => exact absurd hdue (hnone x (by simp [hentries])).not_ge
      | @serve _ x' _ _ _ hentries' _ _ hdrain =>
          obtain ⟨rfl, -⟩ := List.cons.inj (hentries.symm.trans hentries')
          obtain ⟨rfl, rfl⟩ := ih hdrain
          exact ⟨rfl, rfl⟩

theorem Drain.pending {time : ℤ} {a b : Agenda σ β} {events : List (Event β)}
    (h : Drain run time a events b) : ∀ x ∈ b.pending.entries, time < x.key := by
  induction h with
  | stop hnone => exact hnone
  | serve _ _ _ _ ih => exact ih

theorem Advance.unique {time : ℤ} {n : ℕ} {a b b' : Agenda σ β}
    {events events' : List (Event β)} (h : Advance run time a n events b)
    (h' : Advance run time a n events' b') : events = events' ∧ b = b' := by
  induction h generalizing events' with
  | zero =>
      cases h'
      exact ⟨rfl, rfl⟩
  | succ hdrain _ ih =>
      cases h' with
      | succ hdrain' hrest =>
          obtain ⟨rfl, rfl⟩ := hdrain.unique hdrain'
          obtain ⟨rfl, rfl⟩ := ih hrest
          exact ⟨rfl, rfl⟩

/-- Nothing happens when nothing is waiting. -/
theorem advance_of_empty {a : Agenda σ β} (h : a.pending.entries = []) (n : ℕ) (time : ℤ) :
    Advance run time a n [] a := by
  induction n generalizing time with
  | zero => exact .zero
  | succ n ih =>
      have hdrain : Drain run (time + 1) a [] a := .stop (by simp [h])
      exact .succ hdrain (ih (time + 1))

theorem add_succ_cast (time : ℤ) (n : ℕ) : time + (n + 1 : ℕ) = time + 1 + n := by omega

/-- Time that passes in two parts. -/
theorem Advance.split {n k : ℕ} {time : ℤ} {a c : Agenda σ β} {events : List (Event β)}
    (h : Advance run time a (n + k) events c) :
    ∃ first b rest, events = first ++ rest ∧ Advance run time a n first b ∧
      Advance run (time + n) b k rest c := by
  induction n generalizing time a events with
  | zero =>
      refine ⟨[], a, events, rfl, .zero, ?_⟩
      simpa using h
  | succ n ih =>
      rw [Nat.add_right_comm] at h
      cases h with
      | @succ _ _ drained b₀ _ later _ hdrain hlater =>
          obtain ⟨first, b, rest, rfl, hfirst, hrest⟩ := ih hlater
          refine ⟨drained ++ first, b, rest, by simp, .succ hdrain hfirst, ?_⟩
          rwa [add_succ_cast]

/-- No entry is due when time has gone on. -/
theorem Advance.pending {time : ℤ} {n : ℕ} {a b : Agenda σ β} {events : List (Event β)}
    (h : Advance run time a n events b) (hn : 0 < n) :
    ∀ x ∈ b.pending.entries, time + n < x.key := by
  induction h with
  | zero => exact absurd hn (lt_irrefl 0)
  | @succ time a events b n rest c hdrain hrest ih =>
      rw [add_succ_cast]
      cases n with
      | zero =>
          cases hrest
          simpa using hdrain.pending
      | succ n => exact ih (Nat.succ_pos n)

/-! ## Histories -/

/-- The entries that have run, in this order. -/
def ran (trace : List (Event β)) : List (Entry ℤ β) :=
  trace.filterMap fun
    | .ran _ x => some x
    | _ => none

/-- The entries that have been scheduled, in this order. -/
def scheduled (trace : List (Event β)) : List (Entry ℤ β) :=
  trace.filterMap fun
    | .scheduled x => some x
    | _ => none

@[simp] theorem ran_nil : ran ([] : List (Event β)) = [] := rfl

@[simp] theorem ran_scheduled (x : Entry ℤ β) (trace : List (Event β)) :
    ran (.scheduled x :: trace) = ran trace := rfl

@[simp] theorem ran_ran (time : ℤ) (x : Entry ℤ β) (trace : List (Event β)) :
    ran (.ran time x :: trace) = x :: ran trace := rfl

@[simp] theorem ran_erased (x : Entry ℤ β) (trace : List (Event β)) :
    ran (.erased x :: trace) = ran trace := rfl

@[simp] theorem scheduled_nil : scheduled ([] : List (Event β)) = [] := rfl

@[simp] theorem scheduled_scheduled (x : Entry ℤ β) (trace : List (Event β)) :
    scheduled (.scheduled x :: trace) = x :: scheduled trace := rfl

@[simp] theorem scheduled_ran (time : ℤ) (x : Entry ℤ β) (trace : List (Event β)) :
    scheduled (.ran time x :: trace) = scheduled trace := rfl

@[simp] theorem scheduled_erased (x : Entry ℤ β) (trace : List (Event β)) :
    scheduled (.erased x :: trace) = scheduled trace := rfl

@[simp] theorem ran_append (trace events : List (Event β)) :
    ran (trace ++ events) = ran trace ++ ran events :=
  List.filterMap_append

@[simp] theorem scheduled_append (trace events : List (Event β)) :
    scheduled (trace ++ events) = scheduled trace ++ scheduled events :=
  List.filterMap_append

theorem mem_ran {trace : List (Event β)} {x : Entry ℤ β} :
    x ∈ ran trace ↔ ∃ time, .ran time x ∈ trace := by
  rw [ran, List.mem_filterMap]
  constructor
  · rintro ⟨e, he, hsome⟩
    split at hsome
    · cases hsome
      exact ⟨_, he⟩
    · cases hsome
  · rintro ⟨time, he⟩
    exact ⟨_, he, rfl⟩

/-- What has run, and what is pending, is what has been scheduled in the order of time,
and in the order of scheduling for one time. -/
structure Orderly (trace : List (Event β)) (time : ℤ) (m : OrderedMultimap ℤ β) : Prop where
  sorted : (ran trace ++ m.entries).Pairwise Entry.Before
  perm : (ran trace ++ m.entries).Perm (scheduled trace)
  numbers : (scheduled trace).map Entry.number = List.range m.fresh
  due : ∀ t x, .ran t x ∈ trace → x.key ≤ t ∧ t ≤ time

section
variable {trace : List (Event β)} {time : ℤ} {m : OrderedMultimap ℤ β}

theorem orderly_nil (time : ℤ) : Orderly ([] : List (Event β)) time .empty :=
  ⟨.nil, .nil, rfl, by simp⟩

theorem Orderly.number_lt (h : Orderly trace time m) {x : Entry ℤ β} (hx : x ∈ ran trace) :
    x.number < m.fresh := by
  have hscheduled : x ∈ scheduled trace := h.perm.subset (List.mem_append_left _ hx)
  have hnumber := List.mem_map_of_mem (f := Entry.number) hscheduled
  rwa [h.numbers, List.mem_range] at hnumber

theorem Orderly.later (h : Orderly trace time m) {time' : ℤ} (hle : time ≤ time') :
    Orderly trace time' m := by
  refine ⟨h.sorted, h.perm, h.numbers, ?_⟩
  intro t x hx
  exact ⟨(h.due t x hx).1, (h.due t x hx).2.trans hle⟩

/-- An entry that comes in goes behind everything that has run. -/
theorem Orderly.insert (h : Orderly trace time m) {key : ℤ} (hkey : time ≤ key) (callback : β) :
    Orderly (trace ++ [.scheduled (m.newEntry key callback)]) time (m.insert key callback) := by
  obtain ⟨hran, -, hcross⟩ := List.pairwise_append.mp h.sorted
  refine ⟨?_, ?_, ?_, ?_⟩
  · rw [ran_append, ran_scheduled, ran_nil, List.append_nil]
    refine List.pairwise_append.mpr ⟨hran, (m.insert key callback).sorted, ?_⟩
    intro x hx y hy
    rcases mem_insert.mp hy with rfl | hy
    · obtain ⟨t, ht⟩ := mem_ran.mp hx
      obtain ⟨hdue, hpast⟩ := h.due t x ht
      exact before_of_le ((hdue.trans hpast).trans hkey) (h.number_lt hx)
    · exact hcross x hx y hy
  · have hnew : m.newEntry key callback :: m.entries ~ m.entries ++ [m.newEntry key callback] :=
      (List.perm_append_singleton _ _).symm
    calc ran (trace ++ [.scheduled (m.newEntry key callback)]) ++ (m.insert key callback).entries
      _ = ran trace ++ (m.insert key callback).entries := by simp
      _ ~ ran trace ++ (m.entries ++ [m.newEntry key callback]) :=
        ((perm_insert m key callback).trans hnew).append_left _
      _ = ran trace ++ m.entries ++ [m.newEntry key callback] := by simp
      _ ~ scheduled trace ++ [m.newEntry key callback] := h.perm.append_right _
      _ = scheduled (trace ++ [.scheduled (m.newEntry key callback)]) := by simp
  · simp [h.numbers, List.range_succ, newEntry]
  · simpa using h.due

theorem Orderly.plan (h : Orderly trace time m) {calls : List (β × ℤ)}
    (hwaits : ∀ call ∈ calls, 0 ≤ call.2) :
    Orderly (trace ++ (plan time m calls).1) time (plan time m calls).2 := by
  induction calls generalizing trace m with
  | nil => simpa [Agenda.plan] using h
  | cons call calls ih =>
      obtain ⟨callback, wait⟩ := call
      have hwait : 0 ≤ wait := hwaits (callback, wait) List.mem_cons_self
      have hkey : time ≤ time + wait := by omega
      have hfirst := h.insert hkey callback
      have hrest := ih hfirst (List.forall_mem_of_forall_mem_cons hwaits)
      rwa [List.append_assoc, List.singleton_append] at hrest

/-- The entry that runs is the next one. -/
theorem Orderly.first (h : Orderly trace time m) {x : Entry ℤ β} {rest : List (Entry ℤ β)}
    (hentries : m.entries = x :: rest) (hdue : x.key ≤ time) :
    Orderly (trace ++ [.ran time x]) time m.tail := by
  have hsplit : ran (trace ++ [.ran time x]) ++ m.tail.entries = ran trace ++ m.entries := by
    simp [entries_tail hentries, hentries]
  refine ⟨?_, ?_, ?_, ?_⟩
  · rw [hsplit]
    exact h.sorted
  · rw [hsplit]
    simpa using h.perm
  · simpa using h.numbers
  · intro t y hy
    rcases List.mem_append.mp hy with hy | hy
    · exact h.due t y hy
    · cases List.mem_singleton.mp hy
      exact ⟨hdue, le_rfl⟩

theorem Orderly.erased (h : Orderly trace time m) (x : Entry ℤ β) :
    Orderly (trace ++ [.erased x]) time m :=
  ⟨by simpa using h.sorted, by simpa using h.perm, by simpa using h.numbers,
    by simpa using h.due⟩

end

theorem Orderly.serve {trace : List (Event β)} {time : ℤ} {a : Agenda σ β}
    (h : Orderly trace time a.pending) {x : Entry ℤ β} {rest : List (Entry ℤ β)}
    (hentries : a.pending.entries = x :: rest) (hdue : x.key ≤ time)
    (hcalls : ∀ call ∈ (run a.world x.value).2, 0 ≤ call.2) :
    Orderly (trace ++ (a.serve run time x).1) time (a.serve run time x).2.pending := by
  have hplan := (h.first hentries hdue).plan hcalls
  simpa [Agenda.serve] using hplan.erased x

theorem Orderly.drain {trace events : List (Event β)} {time : ℤ} {a b : Agenda σ β}
    (h : Orderly trace time a.pending) (hdrain : Drain run time a events b) :
    Orderly (trace ++ events) time b.pending := by
  induction hdrain generalizing trace with
  | stop _ => simpa using h
  | serve hentries hdue hcalls _ ih => simpa using ih (h.serve hentries hdue hcalls)

theorem Orderly.advance {trace events : List (Event β)} {time : ℤ} {n : ℕ} {a b : Agenda σ β}
    (h : Orderly trace time a.pending) (hadvance : Advance run time a n events b) :
    Orderly (trace ++ events) (time + n) b.pending := by
  induction hadvance generalizing trace with
  | zero => simpa using h
  | @succ time _ _ _ _ _ _ hdrain _ ih =>
      have hle : time ≤ time + 1 := by omega
      rw [add_succ_cast]
      simpa using ih ((h.later hle).drain hdrain)

/-! ## What is erased -/

def Schedules (events : List (Event β)) : Prop := ∀ e ∈ events, ∃ x, e = .scheduled x

/-- An entry is erased right after its run, and nothing else is. -/
inductive Erasing : List (Event β) → Prop where
  | nil : Erasing []
  | scheduled {trace} : Erasing trace → (x : Entry ℤ β) → Erasing (trace ++ [.scheduled x])
  | served {trace events} : Erasing trace → (time : ℤ) → (x : Entry ℤ β) → Schedules events →
      Erasing (trace ++ (.ran time x :: events ++ [.erased x]))

theorem schedules_plan (time : ℤ) (m : OrderedMultimap ℤ β) (calls : List (β × ℤ)) :
    Schedules (plan time m calls).1 := by
  induction calls generalizing m with
  | nil =>
      intro e he
      cases he
  | cons call calls ih =>
      intro e he
      rcases List.mem_cons.mp he with rfl | he
      · exact ⟨_, rfl⟩
      · exact ih _ e he

theorem Erasing.drain {trace events : List (Event β)} (h : Erasing trace) {time : ℤ}
    {a b : Agenda σ β} (hdrain : Drain run time a events b) : Erasing (trace ++ events) := by
  induction hdrain generalizing trace with
  | stop _ => simpa using h
  | @serve a x _ _ _ _ _ _ _ ih =>
      have hfirst := h.served time x (schedules_plan time a.pending.tail (run a.world x.value).2)
      simpa [Agenda.serve] using ih hfirst

theorem Erasing.advance {trace events : List (Event β)} (h : Erasing trace) {time : ℤ} {n : ℕ}
    {a b : Agenda σ β} (hadvance : Advance run time a n events b) :
    Erasing (trace ++ events) := by
  induction hadvance generalizing trace with
  | zero => simpa using h
  | succ hdrain _ ih => simpa using ih (h.drain hdrain)

end Agenda
