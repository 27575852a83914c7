import UniversalDB.Library.Agenda.Chains
import UniversalDB.Model.ClockTesting

/-! # The jobs of `TimerAsyncSchedulerTesting`

A job with a number of tries may be repeated without a wait: the tries come to an end. Only
a job that is repeated for ever has to wait. -/

namespace UniversalDB.TimerAsyncSchedulerTesting

open Agenda

variable {σ γ : Type} {call : σ → γ → σ × List (Job γ × ℤ)}

/-- A job that is repeated waits, and it waits for some time if there is no end to it. -/
def Steady : Job γ → Prop
  | .once _ => True
  | .repeated _ period => 0 < period
  | .repeatedFinite _ period _ => 0 ≤ period

instance : DecidablePred (Steady (γ := γ))
  | .once _ => .isTrue trivial
  | .repeated _ period => inferInstanceAs (Decidable (0 < period))
  | .repeatedFinite _ period _ => inferInstanceAs (Decidable (0 ≤ period))

/-- What the callbacks themselves schedule is steady, and waits for some time. -/
def Patient (call : σ → γ → σ × List (Job γ × ℤ)) : Prop :=
  ∀ world callback, ∀ job ∈ (call world callback).2, Steady job.1 ∧ 0 < job.2

/-- A steady job schedules what its callback does, and then perhaps itself. -/
theorem mem_run {world : σ} {job : Job γ} {next : Job γ × ℤ}
    (h : next ∈ (run call world job).2) :
    (∃ callback, next ∈ (call world callback).2) ∨
      (∃ callback period, job = .repeated callback period ∧
        next = scheduleRepeated callback period) ∨
      ∃ callback period tries, job = .repeatedFinite callback period tries ∧ 1 < tries ∧
        next = scheduleRepeatedFinite callback period (tries - 1) := by
  cases job with
  | once callback => exact .inl ⟨callback, h⟩
  | repeated callback period =>
      rcases List.mem_append.mp h with hown | hself
      · exact .inl ⟨callback, hown⟩
      · exact .inr (.inl ⟨callback, period, rfl, List.mem_singleton.mp hself⟩)
  | repeatedFinite callback period tries =>
      simp only [run] at h
      split at h
      · rename_i htries
        rcases List.mem_append.mp h with hown | hself
        · exact .inl ⟨callback, hown⟩
        · exact .inr (.inr ⟨callback, period, tries, rfl, htries, List.mem_singleton.mp hself⟩)
      · exact .inl ⟨callback, h⟩

theorem waitsForward_run (hcall : Patient call) : WaitsForward (run call) {job | Steady job} := by
  intro world job hsteady next hnext
  rcases mem_run hnext with
    ⟨callback, hown⟩ | ⟨callback, period, rfl, rfl⟩ | ⟨callback, period, tries, rfl, -, rfl⟩
  · obtain ⟨hjob, hwait⟩ := hcall world callback next hown
    exact ⟨hjob, hwait.le⟩
  · exact ⟨hsteady, hsteady.le⟩
  · exact ⟨hsteady, hsteady⟩

def triesLeft : Job γ → ℕ
  | .once _ => 0
  | .repeated _ _ => 0
  | .repeatedFinite _ _ tries => tries.toNat

/-- A steady job is scheduled without a wait only for one of its remaining tries. -/
theorem triesLeft_lt (hcall : Patient call) {world : σ} {job next : Job γ} (hsteady : Steady job)
    (h : next ∈ zeroWaits (run call) world job) : triesLeft next < triesLeft job := by
  obtain ⟨⟨next, wait⟩, hmem, rfl⟩ := List.mem_map.mp h
  obtain ⟨hnext, hzero⟩ := List.mem_filter.mp hmem
  have hwait : wait = 0 := by simpa using hzero
  rcases mem_run hnext with
    ⟨callback, hown⟩ | ⟨callback, period, rfl, heq⟩ | ⟨callback, period, tries, rfl, htries, heq⟩
  · have hpos : 0 < wait := (hcall world callback _ hown).2
    omega
  · cases heq
    exact absurd hwait hsteady.ne'
  · cases heq
    simp only [triesLeft]
    omega

theorem chainlessFor_run (hcall : Patient call) {time : ℤ} {a : Agenda σ (Job γ)}
    (hawaits : Awaits a.pending {job | Steady job}) (n : ℕ) :
    ChainlessFor (run call) time a n := by
  refine chainlessFor_of_rank (waitsForward_run hcall) triesLeft ?_ hawaits n
  intro world job hsteady next hnext
  exact triesLeft_lt hcall hsteady hnext

end UniversalDB.TimerAsyncSchedulerTesting
