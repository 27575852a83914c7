import Mathlib.Logic.Hydra
import Mathlib.Order.WellFounded
import UniversalDB.Library.Agenda

/-! # Chains of waits of zero

The callbacks that are due form a queue, at whose end those come that are scheduled with a
wait of zero. It is served to its end if no chain of such waits is endless. -/

namespace Agenda

open List OrderedMultimap

variable {σ β : Type*} {run : Behaviour σ β}

/-- The callbacks that a callback schedules with a wait of zero. -/
def zeroWaits (run : Behaviour σ β) (world : σ) (callback : β) : List β :=
  ((run world callback).2.filter fun call => call.2 = 0).map Prod.fst

theorem upTo_plan {time : ℤ} {calls : List (β × ℤ)} (hcalls : ∀ call ∈ calls, 0 ≤ call.2)
    (m : OrderedMultimap ℤ β) :
    (plan time m calls).2.upTo time =
      m.upTo time ++ (calls.filter fun call => call.2 = 0).map Prod.fst := by
  induction calls generalizing m with
  | nil => simp [plan]
  | cons call calls ih =>
      obtain ⟨callback, wait⟩ := call
      have hwait : 0 ≤ wait := hcalls (callback, wait) List.mem_cons_self
      have hrest := ih (List.forall_mem_of_forall_mem_cons hcalls)
        (m.insert (time + wait) callback)
      change (plan time (m.insert (time + wait) callback) calls).2.upTo time = _
      rw [hrest]
      rcases hwait.eq_or_lt with rfl | hpos
      · simp [upTo_insert_self]
      · simp [upTo_insert_of_lt m (lt_add_of_pos_right time hpos), hpos.ne']

theorem upTo_serve {time : ℤ} {a : Agenda σ β} {x : Entry ℤ β}
    (hcalls : ∀ call ∈ (run a.world x.value).2, 0 ≤ call.2) :
    (a.serve run time x).2.pending.upTo time =
      a.pending.tail.upTo time ++ zeroWaits run a.world x.value :=
  upTo_plan hcalls a.pending.tail

/-- A callback when it runs: the world that it runs in, and the callbacks that are due
behind it. -/
structure Moment (σ β : Type*) where
  world : σ
  callback : β
  behind : List β

/-- The moments at which the callbacks of a queue run, if `behind` are behind them. -/
def moments (run : Behaviour σ β) : σ → List β → List β → List (Moment σ β)
  | _, [], _ => []
  | world, callback :: queue, behind =>
      ⟨world, callback, queue ++ behind⟩ ::
        moments run (run world callback).1 queue (behind ++ zeroWaits run world callback)

theorem map_callback_moments (world : σ) (queue behind : List β) :
    (moments run world queue behind).map Moment.callback = queue := by
  induction queue generalizing world behind with
  | nil => rfl
  | cons callback queue ih => simp [moments, ih]

/-- What is behind a part of a queue may be more of the queue. -/
theorem take_moments (run : Behaviour σ β) (world : σ) (queue later behind : List β) :
    (moments run world (queue ++ later) behind).take queue.length =
      moments run world queue (later ++ behind) := by
  induction queue generalizing world behind with
  | nil => rfl
  | cons callback queue ih => simp [moments, ih]

/-- The moment `next` is the run of a callback that was scheduled at `moment` with a wait of
zero. -/
def Chains (run : Behaviour σ β) (next moment : Moment σ β) : Prop :=
  let (world, _) := run moment.world moment.callback
  let scheduled := zeroWaits run moment.world moment.callback
  next ∈ (moments run world (moment.behind ++ scheduled) []).drop moment.behind.length

/-- No endless chain starts at a callback of a queue. -/
def Chainless (run : Behaviour σ β) (world : σ) (queue : List β) : Prop :=
  ∀ chain : ℕ → Moment σ β, chain 0 ∈ moments run world queue [] →
    ¬ ∀ n, Chains run (chain (n + 1)) (chain n)

theorem Chainless.acc {world : σ} {queue : List β} (h : Chainless run world queue) :
    ∀ moment ∈ moments run world queue [], Acc (Chains run) moment := by
  intro moment hmoment
  by_contra hacc
  obtain ⟨chain, rfl, hchain⟩ := not_acc_iff_exists_descending_chain.mp hacc
  exact h chain hmoment hchain

/-- A link of a chain that comes to an end. -/
def Ends (run : Behaviour σ β) (next moment : Moment σ β) : Prop :=
  Chains run next moment ∧ Acc (Chains run) moment

theorem wellFounded_ends (run : Behaviour σ β) : WellFounded (Ends run) := by
  refine ⟨fun moment => ⟨moment, ?_⟩⟩
  rintro next ⟨hchains, hacc⟩
  have hnext : Acc (Chains run) next := hacc.inv hchains
  exact Subrelation.accessible (fun h => h.1) hnext

/-- The moments of the queue that the first callback leaves behind: the others of the queue,
and those of the callbacks that it has put in. -/
theorem moments_serve {time : ℤ} {a : Agenda σ β} {x : Entry ℤ β} {rest : List (Entry ℤ β)}
    (hentries : a.pending.entries = x :: rest) (hdue : x.key ≤ time)
    (hcalls : ∀ call ∈ (run a.world x.value).2, 0 ≤ call.2) :
    ∃ first others chained, moments run a.world (a.pending.upTo time) [] = first :: others ∧
      moments run (a.serve run time x).2.world ((a.serve run time x).2.pending.upTo time) [] =
        others ++ chained ∧
      ∀ next ∈ chained, Chains run next first := by
  rw [upTo_of_le hentries hdue, upTo_serve hcalls]
  let behind := a.pending.tail.upTo time
  let scheduled := zeroWaits run a.world x.value
  let world := (run a.world x.value).1
  refine ⟨⟨a.world, x.value, behind⟩, moments run world behind scheduled,
    (moments run world (behind ++ scheduled) []).drop behind.length, ?_, ?_, ?_⟩
  · simp [moments, behind, scheduled, world]
  · have htake := take_moments run world behind scheduled []
    rw [List.append_nil] at htake
    rw [← htake, List.take_append_drop]
    rfl
  · intro next hnext
    exact hnext

/-! ## Time passes if no chain is endless -/

/-- What callbacks of a set schedule is of the set, and no wait is negative. -/
def WaitsForward (run : Behaviour σ β) (callbacks : Set β) : Prop :=
  ∀ world, ∀ callback ∈ callbacks, ∀ call ∈ (run world callback).2,
    call.1 ∈ callbacks ∧ 0 ≤ call.2

/-- Callbacks of a set are waiting. -/
def Awaits (m : OrderedMultimap ℤ β) (callbacks : Set β) : Prop :=
  ∀ x ∈ m.entries, x.value ∈ callbacks

section
variable {callbacks : Set β} {time : ℤ}

theorem Awaits.plan {m : OrderedMultimap ℤ β} (h : Awaits m callbacks) {calls : List (β × ℤ)}
    (hcalls : ∀ call ∈ calls, call.1 ∈ callbacks) :
    Awaits (plan time m calls).2 callbacks := by
  induction calls generalizing m with
  | nil => exact h
  | cons call calls ih =>
      refine ih ?_ (List.forall_mem_of_forall_mem_cons hcalls)
      intro x hx
      rcases mem_insert.mp hx with rfl | hx
      · exact hcalls call List.mem_cons_self
      · exact h x hx

theorem Awaits.serve (hwaits : WaitsForward run callbacks) {a : Agenda σ β}
    (h : Awaits a.pending callbacks) {x : Entry ℤ β} (hx : x ∈ a.pending.entries) :
    Awaits (a.serve run time x).2.pending callbacks := by
  have htail : Awaits a.pending.tail callbacks := fun y hy => h y (List.mem_of_mem_tail hy)
  exact htail.plan fun call hcall => (hwaits a.world x.value (h x hx) call hcall).1

theorem Awaits.drain (hwaits : WaitsForward run callbacks) {a b : Agenda σ β}
    {events : List (Event β)} (h : Awaits a.pending callbacks)
    (hdrain : Drain run time a events b) : Awaits b.pending callbacks := by
  induction hdrain with
  | stop _ => exact h
  | serve hentries _ _ _ ih => exact ih (h.serve hwaits (by simp [hentries]))

theorem Awaits.advance (hwaits : WaitsForward run callbacks) {n : ℕ} {a b : Agenda σ β}
    {events : List (Event β)} (h : Awaits a.pending callbacks)
    (hadvance : Advance run time a n events b) : Awaits b.pending callbacks := by
  induction hadvance with
  | zero => exact h
  | succ hdrain _ ih => exact ih (h.drain hwaits hdrain)

/-- Serving comes to an end if no chain is endless. With each callback that runs, a moment
makes room for finitely many that are further down their chains. -/
theorem exists_drain_of_acc (hwaits : WaitsForward run callbacks)
    (M : Multiset (Moment σ β)) :
    ∀ a : Agenda σ β, Awaits a.pending callbacks →
      ↑(moments run a.world (a.pending.upTo time) []) = M →
      (∀ moment ∈ M, Acc (Chains run) moment) →
      ∃ events b, Drain run time a events b := by
  induction M using (wellFounded_ends run).cutExpand.induction with
  | _ M ih =>
    rintro a hawaits rfl hacc
    cases hentries : a.pending.entries with
    | nil => exact ⟨[], a, .stop (by simp [hentries])⟩
    | cons x rest =>
        by_cases hdue : x.key ≤ time
        · have hx : x ∈ a.pending.entries := by simp [hentries]
          have hcalls : ∀ call ∈ (run a.world x.value).2, 0 ≤ call.2 := fun call hcall =>
            (hwaits a.world x.value (hawaits x hx) call hcall).2
          obtain ⟨first, others, chained, hbefore, hafter, hchains⟩ :=
            moments_serve hentries hdue hcalls
          rw [hbefore] at ih hacc
          have hfirst : Acc (Chains run) first := hacc first (by simp)
          have hcut : Relation.CutExpand (Ends run) ↑(others ++ chained) ↑(first :: others) := by
            refine ⟨↑chained, first, ?_, ?_⟩
            · intro next hnext
              exact ⟨hchains next (by simpa using hnext), hfirst⟩
            · rw [← Multiset.cons_coe, ← Multiset.coe_add, ← Multiset.singleton_add]
              ac_rfl
          have hacc' : ∀ moment ∈ (↑(others ++ chained) : Multiset (Moment σ β)),
              Acc (Chains run) moment := by
            intro moment hmoment
            rcases List.mem_append.mp (Multiset.mem_coe.mp hmoment) with hother | hchained
            · exact hacc moment (by simp [hother])
            · exact hfirst.inv (hchains moment hchained)
          obtain ⟨events, b, hdrain⟩ := ih _ hcut (a.serve run time x).2
            (hawaits.serve hwaits hx) (congrArg _ hafter) hacc'
          exact ⟨_, b, .serve hentries hdue hcalls hdrain⟩
        · exact ⟨[], a, .stop (lt_of_lt_first hentries (not_le.mp hdue))⟩

theorem exists_drain (hwaits : WaitsForward run callbacks) {a : Agenda σ β}
    (hawaits : Awaits a.pending callbacks)
    (h : Chainless run a.world (a.pending.upTo time)) : ∃ events b, Drain run time a events b :=
  exists_drain_of_acc hwaits _ a hawaits rfl h.acc

/-- No endless chain forms while time goes on by `n`. -/
def ChainlessFor (run : Behaviour σ β) (time : ℤ) (a : Agenda σ β) (n : ℕ) : Prop :=
  ∀ k < n, ∀ events b, Advance run time a k events b →
    Chainless run b.world (b.pending.upTo (time + k + 1))

theorem exists_advance (hwaits : WaitsForward run callbacks) {n : ℕ} {a : Agenda σ β}
    (hawaits : Awaits a.pending callbacks) (h : ChainlessFor run time a n) :
    ∃ events b, Advance run time a n events b := by
  induction n generalizing time a with
  | zero => exact ⟨[], a, .zero⟩
  | succ n ih =>
      have hfirst : Chainless run a.world (a.pending.upTo (time + 1)) := by
        simpa using h 0 (Nat.succ_pos n) [] a .zero
      obtain ⟨events, b, hdrain⟩ := exists_drain hwaits hawaits hfirst
      have hlater : ChainlessFor run (time + 1) b n := by
        intro k hk later c hadvance
        have hchainless := h (k + 1) (by omega) _ c (.succ hdrain hadvance)
        rwa [add_succ_cast] at hchainless
      obtain ⟨rest, c, hrest⟩ := ih (hawaits.drain hwaits hdrain) hlater
      exact ⟨events ++ rest, c, .succ hdrain hrest⟩

theorem Chains.mem_zeroWaits {next moment : Moment σ β} (h : Chains run next moment) :
    next.callback ∈ zeroWaits run moment.world moment.callback := by
  have hmem := List.mem_map_of_mem (f := Moment.callback) h
  rwa [List.map_drop, map_callback_moments, List.drop_left] at hmem

theorem mem_of_mem_zeroWaits (hwaits : WaitsForward run callbacks) {world : σ} {callback next : β}
    (hcallback : callback ∈ callbacks) (h : next ∈ zeroWaits run world callback) :
    next ∈ callbacks := by
  obtain ⟨call, hcall, rfl⟩ := List.mem_map.mp h
  exact (hwaits world callback hcallback call (List.mem_of_mem_filter hcall)).1

/-- A rank that falls along waits of zero leaves no endless chain. -/
theorem chainless_of_rank (hwaits : WaitsForward run callbacks) (rank : β → ℕ)
    (hrank : ∀ world, ∀ callback ∈ callbacks, ∀ next ∈ zeroWaits run world callback,
      rank next < rank callback)
    {world : σ} {queue : List β} (hqueue : ∀ callback ∈ queue, callback ∈ callbacks) :
    Chainless run world queue := by
  intro chain hstart hchain
  have hmem : ∀ n, (chain n).callback ∈ callbacks := by
    intro n
    induction n with
    | zero =>
        have hcallback := List.mem_map_of_mem (f := Moment.callback) hstart
        rw [map_callback_moments] at hcallback
        exact hqueue _ hcallback
    | succ n ih => exact mem_of_mem_zeroWaits hwaits ih (hchain n).mem_zeroWaits
  obtain ⟨n, hn⟩ := WellFounded.not_rel_apply_succ (r := fun j k : ℕ => j < k)
    fun n => rank (chain n).callback
  exact hn (hrank _ _ (hmem n) _ (hchain n).mem_zeroWaits)

theorem chainlessFor_of_rank (hwaits : WaitsForward run callbacks) (rank : β → ℕ)
    (hrank : ∀ world, ∀ callback ∈ callbacks, ∀ next ∈ zeroWaits run world callback,
      rank next < rank callback)
    {a : Agenda σ β} (hawaits : Awaits a.pending callbacks) (n : ℕ) :
    ChainlessFor run time a n := by
  intro k _ events b hadvance
  refine chainless_of_rank hwaits rank hrank ?_
  intro callback hcallback
  obtain ⟨x, hx, rfl⟩ := List.mem_map.mp hcallback
  exact hawaits.advance hwaits hadvance x (List.mem_of_mem_filter hx)

end

end Agenda
