import UniversalDB.Verification.TimerAsyncSchedulerTesting

/-! # `ClockTesting` simulates time

The entry of a callback is still in front when its run is over, since what the callback
schedules comes in behind everything that is due. So the loops do what `Agenda.Advance`
says, as long as no sum is too large for its type. -/

namespace UniversalDB.ClockTesting

open Agenda

variable {σ β : Type} {run : Behaviour σ β}

/-! ## Sums and calls of `schedule_async` -/

theorem bind_eq_ok {α γ : Type} {x : Except Fault α} {f : α → Except Fault γ} {c : γ} :
    (x >>= f) = .ok c ↔ ∃ a, x = .ok a ∧ f a = .ok c := by
  cases x with
  | error fault => simp [bind, Except.bind]
  | ok a => simp [bind, Except.bind]

theorem return_eq_ok {α : Type} {a b : α} :
    (return a : Except Fault α) = .ok b ↔ b = a := by
  simp [pure, Except.pure, eq_comm]

theorem toOption_eq_some {α : Type} {x : Except Fault α} {a : α} :
    x.toOption = some a ↔ x = .ok a := by
  cases x with
  | error fault => simp [Except.toOption]
  | ok b => simp [Except.toOption]

theorem add_eq_ok {max x y z : ℤ} : add max x y = .ok z ↔ x + y ≤ max ∧ z = x + y := by
  unfold add
  split
  · rename_i hle
    simp [hle, eq_comm]
  · rename_i hle
    simp [hle]

theorem scheduleAsync_eq_ok {clock : ClockTesting β} {callback : β} {wait : ℤ}
    {result : List (Event β) × ClockTesting β} :
    clock.scheduleAsync callback wait = .ok result ↔
      0 ≤ wait ∧ clock.time + wait ≤ LONG_MAX ∧
        result = ([.scheduled (clock.scheduledCallbacks.newEntry (clock.time + wait) callback)],
          ⟨clock.time, clock.scheduledCallbacks.insert (clock.time + wait) callback⟩) := by
  simp only [scheduleAsync, bind_eq_ok, add_eq_ok, return_eq_ok]
  by_cases hwait : 0 ≤ wait
  · simp [universalAssert, hwait, Except.mapError]
  · simp [universalAssert, hwait, Except.mapError]

/-- The deadlines that are scheduled are of type `long`. -/
def InRange (events : List (Event β)) : Prop :=
  ∀ x, .scheduled x ∈ events → x.key ≤ LONG_MAX

theorem inRange_nil : InRange ([] : List (Event β)) := by simp [InRange]

theorem inRange_append {events rest : List (Event β)} :
    InRange (events ++ rest) ↔ InRange events ∧ InRange rest := by
  simp [InRange, or_imp, forall_and]

theorem inRange_scheduled {x : OrderedMultimap.Entry ℤ β} {events : List (Event β)} :
    InRange (.scheduled x :: events) ↔ x.key ≤ LONG_MAX ∧ InRange events := by
  simp [InRange, or_imp, forall_and]

theorem inRange_serve {time : ℤ} {a : Agenda σ β} {x : OrderedMultimap.Entry ℤ β} :
    InRange (a.serve run time x).1 ↔
      InRange (plan time a.pending.tail (run a.world x.value).2).1 := by
  simp [InRange, serve]

theorem eraseBegin_of_first {clock : ClockTesting β} {x : OrderedMultimap.Entry ℤ β}
    {rest : List (OrderedMultimap.Entry ℤ β)}
    (h : clock.scheduledCallbacks.entries = x :: rest) :
    clock.eraseBegin = .ok ([.erased x], ⟨clock.time, clock.scheduledCallbacks.tail⟩) := by
  simp only [eraseBegin, h]
  rfl

theorem scheduleAll_eq_ok {clock : ClockTesting β} {calls : List (β × ℤ)}
    {result : List (Event β) × ClockTesting β} :
    clock.scheduleAll calls = .ok result ↔
      (∀ call ∈ calls, 0 ≤ call.2) ∧
        InRange (plan clock.time clock.scheduledCallbacks calls).1 ∧
        result = ((plan clock.time clock.scheduledCallbacks calls).1,
          ⟨clock.time, (plan clock.time clock.scheduledCallbacks calls).2⟩) := by
  induction calls generalizing clock result with
  | nil => simp [scheduleAll, plan, inRange_nil, return_eq_ok]
  | cons call calls ih =>
      obtain ⟨callback, wait⟩ := call
      simp only [scheduleAll, bind_eq_ok, return_eq_ok, scheduleAsync_eq_ok, ih, plan,
        inRange_scheduled, List.forall_mem_cons]
      constructor
      · rintro ⟨_, ⟨hwait, hrange, rfl⟩, _, ⟨hwaits, hranges, rfl⟩, rfl⟩
        exact ⟨⟨hwait, hwaits⟩, ⟨hrange, hranges⟩, rfl⟩
      · rintro ⟨⟨hwait, hwaits⟩, ⟨hrange, hranges⟩, rfl⟩
        exact ⟨_, ⟨hwait, hrange, rfl⟩, _, ⟨hwaits, hranges, rfl⟩, rfl⟩

/-! ## Loops -/

namespace Simulation

/-- A simulation by its time and its agenda. -/
def ofAgenda (time : ℤ) (a : Agenda σ β) : Simulation σ β := ⟨a.world, ⟨time, a.pending⟩⟩

def agenda (s : Simulation σ β) : Agenda σ β := ⟨s.world, s.clock.scheduledCallbacks⟩

theorem ofAgenda_agenda (s : Simulation σ β) : ofAgenda s.clock.time s.agenda = s := rfl

/-- The entry that is erased after a run is the one that has run, and what is left is what
`serve` leaves. -/
theorem runCallbacks_succ {time : ℤ} {a : Agenda σ β} {x : OrderedMultimap.Entry ℤ β}
    {rest : List (OrderedMultimap.Entry ℤ β)} (hentries : a.pending.entries = x :: rest)
    (hdue : x.key ≤ time) {fuel : ℕ} {result : Outcome σ β} :
    (ofAgenda time a).runCallbacks run (fuel + 1) = .ok result ↔
      (∀ call ∈ (run a.world x.value).2, 0 ≤ call.2) ∧ InRange (a.serve run time x).1 ∧
        ∃ later, (ofAgenda time (a.serve run time x).2).runCallbacks run fuel = .ok later ∧
          result = ((a.serve run time x).1 ++ later.1, later.2) := by
  simp only [runCallbacks, ofAgenda, hentries, hdue, if_true, bind_eq_ok, return_eq_ok,
    scheduleAll_eq_ok, inRange_serve]
  constructor
  · rintro ⟨_, ⟨hcalls, hrange, rfl⟩, _, herased, later, hlater, rfl⟩
    obtain ⟨hevents, ⟨rest', hfirst⟩, htail⟩ := plan_of_first hentries hdue hcalls
    rw [eraseBegin_of_first hfirst] at herased
    cases herased
    refine ⟨hcalls, ?_, later, ?_, ?_⟩
    · rwa [← hevents]
    · simpa [ofAgenda, serve, htail] using hlater
    · simp [serve, hevents]
  · rintro ⟨hcalls, hrange, later, hlater, rfl⟩
    obtain ⟨hevents, ⟨rest', hfirst⟩, htail⟩ := plan_of_first hentries hdue hcalls
    refine ⟨_, ⟨hcalls, ?_, rfl⟩, _, eraseBegin_of_first hfirst, later, ?_, ?_⟩
    · rwa [← hevents] at hrange
    · simpa [ofAgenda, serve, htail] using hlater
    · simp [serve, hevents]

theorem runCallbacks_of_later {time : ℤ} {a : Agenda σ β}
    (h : ∀ x ∈ a.pending.entries, time < x.key) (fuel : ℕ) :
    (ofAgenda time a).runCallbacks run (fuel + 1) = .ok ([], ofAgenda time a) := by
  cases hentries : a.pending.entries with
  | nil =>
      simp only [runCallbacks, ofAgenda, hentries]
      rfl
  | cons x rest =>
      have hlater : ¬ x.key ≤ time := (h x (by simp [hentries])).not_ge
      simp only [runCallbacks, ofAgenda, hentries, hlater, if_false]
      rfl

theorem drain_of_runCallbacks {fuel : ℕ} {time : ℤ} {a : Agenda σ β} {events : List (Event β)}
    {s : Simulation σ β} (h : (ofAgenda time a).runCallbacks run fuel = .ok (events, s)) :
    ∃ b, s = ofAgenda time b ∧ Drain run time a events b ∧ InRange events := by
  induction fuel generalizing a events with
  | zero => cases h
  | succ fuel ih =>
      by_cases hlater : ∀ x ∈ a.pending.entries, time < x.key
      · rw [runCallbacks_of_later hlater] at h
        cases h
        exact ⟨a, rfl, .stop hlater, inRange_nil⟩
      · cases hentries : a.pending.entries with
        | nil => exact absurd (by simp [hentries]) hlater
        | cons x rest =>
            have hdue : x.key ≤ time := by
              by_contra hnot
              exact hlater (OrderedMultimap.lt_of_lt_first hentries (not_le.mp hnot))
            obtain ⟨hcalls, hrange, ⟨rest', s'⟩, hrest, heq⟩ :=
              (runCallbacks_succ hentries hdue).mp h
            cases heq
            obtain ⟨b, rfl, hdrain, hranges⟩ := ih hrest
            refine ⟨b, rfl, .serve hentries hdue hcalls hdrain, ?_⟩
            exact inRange_append.mpr ⟨hrange, hranges⟩

theorem runCallbacks_of_drain {time : ℤ} {a b : Agenda σ β}
    {events : List (Event β)} (h : Drain run time a events b) (hrange : InRange events) :
    ∃ fuel₀, ∀ fuel ≥ fuel₀,
      (ofAgenda time a).runCallbacks run fuel = .ok (events, ofAgenda time b) := by
  induction h with
  | stop hlater =>
      refine ⟨1, ?_⟩
      intro fuel hfuel
      obtain ⟨fuel, rfl⟩ := Nat.exists_eq_add_of_le' hfuel
      exact runCallbacks_of_later hlater fuel
  | serve hentries hdue hcalls _ ih =>
      obtain ⟨hfirst, hrest⟩ := inRange_append.mp hrange
      obtain ⟨fuel₀, hfuel₀⟩ := ih hrest
      refine ⟨fuel₀ + 1, ?_⟩
      intro fuel hfuel
      obtain ⟨fuel, rfl⟩ := Nat.exists_eq_add_of_le' (Nat.le_of_add_left_le hfuel)
      refine (runCallbacks_succ hentries hdue).mpr ⟨hcalls, hfirst, ?_⟩
      exact ⟨_, hfuel₀ fuel (by omega), rfl⟩

theorem incrementLoop_succ {fuel n : ℕ} {i time : ℤ} {a : Agenda σ β} {result : Outcome σ β} :
    (ofAgenda time a).incrementLoop run fuel (n + 1) i = .ok result ↔
      time + 1 ≤ LONG_MAX ∧ i + 1 ≤ INT_MAX ∧
        ∃ first, (ofAgenda (time + 1) a).runCallbacks run fuel = .ok first ∧
          ∃ later, first.2.incrementLoop run fuel n (i + 1) = .ok later ∧
            result = (first.1 ++ later.1, later.2) := by
  simp only [incrementLoop, millisecond, bind_eq_ok, add_eq_ok, return_eq_ok]
  constructor
  · rintro ⟨first, ⟨_, ⟨htime, rfl⟩, hfirst⟩, _, ⟨hi, rfl⟩, later, hlater, rfl⟩
    exact ⟨htime, hi, first, hfirst, later, hlater, rfl⟩
  · rintro ⟨htime, hi, first, hfirst, later, hlater, rfl⟩
    exact ⟨first, ⟨_, ⟨htime, rfl⟩, hfirst⟩, _, ⟨hi, rfl⟩, later, hlater, rfl⟩

theorem advance_of_incrementLoop {fuel n : ℕ} {i time : ℤ} {a : Agenda σ β}
    {events : List (Event β)} {s : Simulation σ β} (htime : time ≤ LONG_MAX) (hi : i ≤ INT_MAX)
    (h : (ofAgenda time a).incrementLoop run fuel n i = .ok (events, s)) :
    ∃ b, s = ofAgenda (time + n) b ∧ Advance run time a n events b ∧ InRange events ∧
      time + n ≤ LONG_MAX ∧ i + n ≤ INT_MAX := by
  induction n generalizing i time a events with
  | zero =>
      cases h
      exact ⟨a, by simp, .zero, inRange_nil, by simpa using htime, by simpa using hi⟩
  | succ n ih =>
      obtain ⟨htime', hi', ⟨first, s₁⟩, hfirst, ⟨rest, s₂⟩, hrest, heq⟩ :=
        incrementLoop_succ.mp h
      cases heq
      obtain ⟨b, rfl, hdrain, hrange⟩ := drain_of_runCallbacks hfirst
      obtain ⟨c, rfl, hadvance, hranges, htimes, his⟩ := ih htime' hi' hrest
      rw [add_succ_cast, add_succ_cast]
      exact ⟨c, rfl, .succ hdrain hadvance, inRange_append.mpr ⟨hrange, hranges⟩, htimes, his⟩

theorem incrementLoop_of_advance {n : ℕ} {time : ℤ}
    {a b : Agenda σ β} {events : List (Event β)} (h : Advance run time a n events b)
    (hrange : InRange events) (htime : time + n ≤ LONG_MAX) {i : ℤ} (hi : i + n ≤ INT_MAX) :
    ∃ fuel₀, ∀ fuel ≥ fuel₀,
      (ofAgenda time a).incrementLoop run fuel n i = .ok (events, ofAgenda (time + n) b) := by
  induction h generalizing i with
  | zero =>
      refine ⟨0, ?_⟩
      intro fuel _
      simp [incrementLoop, pure, Except.pure]
  | succ hdrain _ ih =>
      obtain ⟨hfirst, hrest⟩ := inRange_append.mp hrange
      rw [add_succ_cast] at htime hi ⊢
      obtain ⟨fuel₁, hfuel₁⟩ := runCallbacks_of_drain hdrain hfirst
      obtain ⟨fuel₂, hfuel₂⟩ := ih hrest htime hi
      refine ⟨max fuel₁ fuel₂, ?_⟩
      intro fuel hfuel
      refine incrementLoop_succ.mpr ⟨by omega, by omega, _, hfuel₁ fuel (by omega), ?_⟩
      exact ⟨_, hfuel₂ fuel (by omega), rfl⟩

/-! ## `increment_time` -/

/-- What two calls of `increment_time` lead to, one after the other. -/
def incrementTwice (run : Behaviour σ β) (fuel : ℕ) (s : Simulation σ β) (a b : ℤ) :
    Except Fault (Outcome σ β) := do
  let (events, s₁) ← s.incrementTime run fuel a
  let (rest, s₂) ← s₁.incrementTime run fuel b
  return (events ++ rest, s₂)

theorem advance_of_incrementTime {fuel n : ℕ} {s s' : Simulation σ β} {events : List (Event β)}
    (htime : s.clock.time ≤ LONG_MAX) (h : s.incrementTime run fuel n = .ok (events, s')) :
    ∃ b, s' = ofAgenda (s.clock.time + n) b ∧
      Advance run s.clock.time s.agenda n events b ∧ InRange events ∧
      s.clock.time + n ≤ LONG_MAX ∧ n ≤ INT_MAX := by
  rw [incrementTime, Int.toNat_natCast, ← ofAgenda_agenda s] at h
  have hzero : (0 : ℤ) ≤ INT_MAX := by decide
  obtain ⟨b, heq, hadvance, hrange, htimes, hn⟩ := advance_of_incrementLoop htime hzero h
  exact ⟨b, heq, hadvance, hrange, htimes, by simpa using hn⟩

theorem incrementTime_of_advance {n : ℕ} {time : ℤ}
    {a b : Agenda σ β} {events : List (Event β)} (h : Advance run time a n events b)
    (hrange : InRange events) (htime : time + n ≤ LONG_MAX) (hn : n ≤ INT_MAX) :
    ∃ fuel₀, ∀ fuel ≥ fuel₀,
      (ofAgenda time a).incrementTime run fuel n = .ok (events, ofAgenda (time + n) b) := by
  simp only [incrementTime, Int.toNat_natCast]
  exact incrementLoop_of_advance h hrange htime (by simpa using hn)

theorem incrementTwice_of_advance {n k : ℕ} {time : ℤ}
    {a b : Agenda σ β} {events : List (Event β)} (h : Advance run time a (n + k) events b)
    (hrange : InRange events) (htime : time + (n + k : ℕ) ≤ LONG_MAX) (hn : n ≤ INT_MAX)
    (hk : k ≤ INT_MAX) :
    ∃ fuel₀, ∀ fuel ≥ fuel₀, (ofAgenda time a).incrementTwice run fuel n k =
      .ok (events, ofAgenda (time + (n + k : ℕ)) b) := by
  obtain ⟨first, b₁, rest, rfl, hfirst, hrest⟩ := h.split
  obtain ⟨hrange₁, hrange₂⟩ := inRange_append.mp hrange
  obtain ⟨fuel₁, hfuel₁⟩ :=
    incrementTime_of_advance hfirst hrange₁ (by omega) hn
  obtain ⟨fuel₂, hfuel₂⟩ :=
    incrementTime_of_advance hrest hrange₂ (by omega) hk
  refine ⟨max fuel₁ fuel₂, ?_⟩
  intro fuel hfuel
  have htimes : time + n + k = time + (n + k : ℕ) := by omega
  simp only [incrementTwice, bind_eq_ok, return_eq_ok]
  refine ⟨_, hfuel₁ fuel (by omega), _, hfuel₂ fuel (by omega), ?_⟩
  rw [htimes]

end Simulation

/-! ## Runs -/

/-- The clock is exact in its past. -/
structure Exact (trace : List (Event β)) (s : Simulation σ β) : Prop where
  /-- Entries are numbered in the order in which they were scheduled. -/
  numbers : (scheduled trace).map OrderedMultimap.Entry.number =
    List.range s.clock.scheduledCallbacks.fresh
  /-- What has been scheduled has either run, once, or is pending. -/
  once : (ran trace ++ s.clock.scheduledCallbacks.entries).Perm (scheduled trace)
  /-- It runs in the order of deadlines, and in the order of insertion for one deadline. -/
  order : (ran trace ++ s.clock.scheduledCallbacks.entries).Pairwise
    OrderedMultimap.Entry.Before
  /-- Nothing has run before its deadline. -/
  due : ∀ time x, .ran time x ∈ trace → x.key ≤ time
  /-- The entry that is erased is the one that has just run. -/
  erasing : Erasing trace

/-- What carries `Exact` over a call. -/
structure Inv (trace : List (Event β)) (s : Simulation σ β) : Prop where
  orderly : Orderly trace s.clock.time s.clock.scheduledCallbacks
  erasing : Erasing trace
  inRange : s.clock.time ≤ LONG_MAX

theorem Inv.exact {trace : List (Event β)} {s : Simulation σ β} (h : Inv trace s) :
    Exact trace s := by
  refine ⟨h.orderly.numbers, h.orderly.perm, h.orderly.sorted, ?_, h.erasing⟩
  intro time x hx
  exact (h.orderly.due time x hx).1

theorem Inv.advance {trace events : List (Event β)} {s : Simulation σ β} (h : Inv trace s)
    {n : ℕ} {b : Agenda σ β} (hadvance : Advance run s.clock.time s.agenda n events b)
    (htime : s.clock.time + n ≤ LONG_MAX) :
    Inv (trace ++ events) (.ofAgenda (s.clock.time + n) b) :=
  ⟨h.orderly.advance hadvance, h.erasing.advance hadvance, htime⟩

theorem Inv.call {trace events : List (Event β)} {s s' : Simulation σ β} (h : Inv trace s)
    {a : Action σ β} (hcall : s.call run a = .ok (events, s')) : Inv (trace ++ events) s' := by
  cases a with
  | scheduleAsync callback wait =>
      simp only [Simulation.call, bind_eq_ok, return_eq_ok, scheduleAsync_eq_ok] at hcall
      obtain ⟨_, ⟨hwait, -, rfl⟩, heq⟩ := hcall
      cases heq
      exact ⟨h.orderly.insert (by omega) callback, h.erasing.scheduled _, h.inRange⟩
  | incrementTime increment fuel =>
      have hcall' : s.incrementTime run fuel increment.toNat = .ok (events, s') := by
        rw [Simulation.incrementTime, Int.toNat_natCast]
        exact hcall
      obtain ⟨b, rfl, hadvance, -, htime, -⟩ :=
        Simulation.advance_of_incrementTime h.inRange hcall'
      exact h.advance hadvance htime
  | other world =>
      cases hcall
      rw [List.append_nil]
      exact ⟨h.orderly, h.erasing, h.inRange⟩

theorem inv_of_run {world : σ} {trace : List (Event β)} {s : Simulation σ β}
    (h : (machine run world).system.Run trace s) : Inv trace s := by
  refine h.invariant (I := Inv) ?_ ?_
  · rintro s rfl
    exact ⟨orderly_nil 0, .nil, (by decide : (0 : ℤ) ≤ LONG_MAX)⟩
  · intro trace s events s' _ hinv hstep
    obtain ⟨a, -, hnext⟩ := hstep
    exact hinv.call (toOption_eq_some.mp hnext)

/-- The times of the next `n` milliseconds, and the deadlines that are scheduled in them, are
of type `long`. -/
def Fits (run : Behaviour σ β) (s : Simulation σ β) (n : ℕ) : Prop :=
  s.clock.time + n ≤ LONG_MAX ∧
    ∀ events b, Advance run s.clock.time s.agenda n events b → InRange events

/-- A call of `increment_time` that returns has met no sum that is too large. -/
theorem fits_of_incrementTime {fuel n : ℕ} {s : Simulation σ β}
    (htime : s.clock.time ≤ LONG_MAX) {result : Simulation.Outcome σ β}
    (h : s.incrementTime run fuel n = .ok result) : n ≤ INT_MAX ∧ Fits run s n := by
  obtain ⟨b, -, hadvance, hrange, htimes, hint⟩ := Simulation.advance_of_incrementTime htime h
  refine ⟨hint, htimes, ?_⟩
  intro events b' hadvance'
  obtain ⟨rfl, -⟩ := hadvance.unique hadvance'
  exact hrange

/-- `increment_time(a + b)` returns, and so do `increment_time(a)` and then
`increment_time(b)`, with the same events, clock and pending callbacks. The clock is exact,
and no callback is due. -/
def ExactFor (run : Behaviour σ β) (trace : List (Event β)) (s : Simulation σ β) (a b : ℕ) :
    Prop :=
  ∃ fuel₀ events s', (∀ fuel ≥ fuel₀,
      s.incrementTime run fuel (a + b) = .ok (events, s') ∧
        s.incrementTwice run fuel a b = .ok (events, s')) ∧
    Exact (trace ++ events) s' ∧ s'.clock.time = s.clock.time + (a + b) ∧
    (0 < a + b → ∀ x ∈ s'.clock.scheduledCallbacks.entries, s'.clock.time < x.key)

theorem exactFor_iff {world : σ} {trace : List (Event β)} {s : Simulation σ β}
    (h : (machine run world).system.Run trace s) {callbacks : Set β}
    (hwaits : WaitsForward run callbacks)
    (hawaits : Awaits s.clock.scheduledCallbacks callbacks) (a b : ℕ)
    (hchainless : ChainlessFor run s.clock.time s.agenda (a + b)) :
    ExactFor run trace s a b ↔ (a + b : ℕ) ≤ INT_MAX ∧ Fits run s (a + b) := by
  have hinv := inv_of_run h
  constructor
  · rintro ⟨fuel₀, events, s', hreturns, -⟩
    have hreturns₀ := (hreturns fuel₀ le_rfl).1
    rw [← Nat.cast_add] at hreturns₀
    exact fits_of_incrementTime hinv.inRange hreturns₀
  · rintro ⟨hint, htime, hrange⟩
    obtain ⟨events, b', hadvance⟩ := exists_advance hwaits hawaits hchainless
    have hrange' : InRange events := hrange events b' hadvance
    obtain ⟨fuel₁, hfuel₁⟩ :=
      Simulation.incrementTime_of_advance hadvance hrange' htime hint
    obtain ⟨fuel₂, hfuel₂⟩ :=
      Simulation.incrementTwice_of_advance hadvance hrange' htime (by omega) (by omega)
    rw [Simulation.ofAgenda_agenda] at hfuel₁ hfuel₂
    refine ⟨max fuel₁ fuel₂, events, .ofAgenda (s.clock.time + (a + b : ℕ)) b', ?_,
      (hinv.advance hadvance htime).exact, by simp [Simulation.ofAgenda],
      hadvance.pending⟩
    intro fuel hfuel
    refine ⟨?_, hfuel₂ fuel (by omega)⟩
    rw [← Nat.cast_add]
    exact hfuel₁ fuel (by omega)

/-! ## A test with chained callbacks -/

open TimerAsyncSchedulerTesting in
/-- Callbacks that count their runs, one of which schedules the other. -/
def chaining (world : ℕ) (callback : Bool) : ℕ × List (Job Bool × ℤ) :=
  (world + 1, if callback then [scheduleOnce false 5] else [])

theorem patient_chaining : TimerAsyncSchedulerTesting.Patient chaining := by
  intro world callback job hjob
  cases callback with
  | false => cases hjob
  | true =>
      cases List.mem_singleton.mp hjob
      exact ⟨trivial, by decide⟩

open TimerAsyncSchedulerTesting in
/-- A job with three tries that does not wait, a repeated job and a chain. -/
theorem exactFor_iff_sample :
    ∃ (trace : List (Event (Job Bool))) (s : Simulation ℕ (Job Bool)),
      (ran trace).length = 4 ∧ s.clock.time = 2 ∧
        ExactFor (TimerAsyncSchedulerTesting.run chaining) trace s 3 4 := by
  let run := TimerAsyncSchedulerTesting.run chaining
  obtain ⟨trace, s, hrun, hlength, htime, hawaits, hreturns⟩ :=
    (machine run 0).exists_run
      (p := fun r => (ran r.1).length = 4 ∧ r.2.clock.time = 2 ∧
        (∀ x ∈ r.2.clock.scheduledCallbacks.entries, Steady x.value) ∧
        ((r.2.incrementTime run 10 7).toOption.isSome))
      [.scheduleAsync (.repeatedFinite false 0 3) 0, .scheduleAsync (.repeated false 2) 2,
        .scheduleAsync (.once true) 3, .incrementTime 2 10] (by decide +kernel)
  obtain ⟨result, hresult⟩ := Option.isSome_iff_exists.mp hreturns
  have hinRange : s.clock.time ≤ LONG_MAX := by
    rw [htime]
    decide
  have hfits := fits_of_incrementTime (n := 7) hinRange (toOption_eq_some.mp hresult)
  have hchainless : ChainlessFor run s.clock.time s.agenda 7 :=
    chainlessFor_run (a := s.agenda) patient_chaining hawaits 7
  refine ⟨trace, s, hlength, htime, ?_⟩
  exact (exactFor_iff hrun (waitsForward_run patient_chaining) hawaits 3 4 hchainless).mpr hfits

/-! ## An increment that an `int` cannot count -/

def idle (world : Unit) (_callback : Unit) : Unit × List (Unit × ℤ) := (world, [])

theorem waitsForward_idle : WaitsForward idle Set.univ := by
  intro world callback _ call hcall
  cases hcall

theorem chainlessFor_idle (time : ℤ) (a : Agenda Unit Unit) (n : ℕ) :
    ChainlessFor idle time a n := by
  refine chainlessFor_of_rank waitsForward_idle (fun _ => 0) ?_ (fun _ _ => trivial) n
  intro world callback _ next hnext
  cases hnext

/-- On a new clock `increment_time(2147483647)` and then `increment_time(1)` return, and
`increment_time(2147483648)` does not. -/
theorem not_exact : ∃ s : Simulation Unit Unit, (machine idle ()).system.Run [] s ∧
    WaitsForward idle Set.univ ∧ Awaits s.clock.scheduledCallbacks Set.univ ∧
    ChainlessFor idle s.clock.time s.agenda (2147483647 + 1) ∧
    (∃ fuel result, s.incrementTwice idle fuel 2147483647 1 = .ok result) ∧
    (∀ fuel result, s.incrementTime idle fuel 2147483648 ≠ .ok result) ∧
    ¬ ExactFor idle [] s 2147483647 1 := by
  let s : Simulation Unit Unit := ⟨(), new⟩
  have honce : ∀ fuel result, s.incrementTime idle fuel 2147483648 ≠ .ok result := by
    intro fuel result hreturns
    have hint := (fits_of_incrementTime (n := 2147483648) (by decide) hreturns).1
    exact absurd hint (by decide)
  have hadvance : Advance idle 0 s.agenda (2147483647 + 1) [] s.agenda :=
    advance_of_empty rfl _ 0
  obtain ⟨fuel, hfuel⟩ := Simulation.incrementTwice_of_advance hadvance inRange_nil
    (by decide) (by decide) (by decide)
  refine ⟨s, .start rfl, waitsForward_idle, fun _ _ => trivial, chainlessFor_idle _ _ _,
    ⟨fuel, _, hfuel fuel le_rfl⟩, honce, ?_⟩
  rintro ⟨fuel₀, events, s', hreturns, -⟩
  exact honce fuel₀ _ (hreturns fuel₀ le_rfl).1

end UniversalDB.ClockTesting
