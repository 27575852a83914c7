import UniversalDB.Verification.PaxosLog.Callbacks

/-! # The available indices of a log -/

namespace UniversalDB.PaxosLog

variable {κ : Type}

theorem Available.ne_nil {l : PaxosLog κ} {last : ℕ} (h : l.Available last) :
    l.availableIndices ≠ [] := by
  obtain ⟨first, rest, havail⟩ := h.exists_cons
  rw [havail]
  exact List.cons_ne_nil _ _

/-- The last available index of a log with an entry follows its greatest populated index. -/
theorem Available.greatest {l : PaxosLog κ} {last : ℕ} (h : l.Available last) {i : ℕ}
    (hi : (l.log i).isSome) : ∃ M, last = M + 1 ∧ IsGreatest {i | (l.log i).isSome} M := by
  have hbelow : ∀ j, (l.log j).isSome → j < last := by
    intro j hj
    by_contra hle
    rw [h.unset j (by omega)] at hj
    cases hj
  obtain ⟨M, rfl⟩ : ∃ M, last = M + 1 := ⟨last - 1, by have := hbelow i hi; omega⟩
  refine ⟨M, rfl, h.populated M rfl, ?_⟩
  intro j hj
  exact Nat.le_of_lt_succ (hbelow j hj)

/-- Whatever the order of the calls and the gaps they leave, the available indices are
the gaps up to the index behind the greatest populated one, in ascending order; the first
of them is the least gap, and the first entry set at an index stays. -/
theorem availableIndices_gaps (registrations : List (EntryContentCase × κ))
    (entries : List (ℕ × PaxosLogEntry)) (hindex : ∀ p ∈ entries, p.1 < 2 ^ 64 - 1) :
    ∃ l calls m, (register registrations).setEntries entries = .ok (l, calls) ∧
      l.getAvailableIndices ≠ [] ∧ l.getAvailableIndices.Pairwise (· < ·) ∧
      (entries = [] → l.getAvailableIndices = [0]) ∧
      (entries ≠ [] → ∃ M, IsGreatest {i | (l.getEntry i).isSome} M ∧
        ∀ i, i ∈ l.getAvailableIndices ↔ i ≤ M + 1 ∧ l.getEntry i = none) ∧
      l.nextAvailableIndex = .ok m ∧ IsLeast {i | l.getEntry i = none} m ∧
      ∀ i, l.getEntry i = firstEntry entries i := by
  obtain ⟨l, calls, hset, hspec⟩ :=
    (register_wellFormed registrations).setEntries entries hindex
  obtain ⟨m, hm, hgap⟩ := hspec.wellFormed.nextAvailableIndex
  obtain ⟨last, havail⟩ := hspec.wellFormed
  have hentry : ∀ i, l.getEntry i = firstEntry entries i := by
    intro i
    have hi := hspec.log i
    rw [register_log] at hi
    exact hi
  refine ⟨l, calls, m, hset, havail.ne_nil, havail.ascending, ?_, ?_, hm, hgap.isLeast,
    hentry⟩
  · rintro rfl
    cases hset
    exact register_availableIndices registrations
  · intro hne
    obtain ⟨p, rest, rfl⟩ := List.exists_cons_of_ne_nil hne
    have hpopulated : (l.log p.1).isSome := by
      have hp := hentry p.1
      rw [firstEntry_cons, if_pos rfl] at hp
      rw [show l.log p.1 = some p.2 from hp]
      rfl
    obtain ⟨M, rfl, hgreatest⟩ := havail.greatest hpopulated
    exact ⟨M, hgreatest, havail.mem_iff⟩

/-- A repeated entry, an entry beyond the end and one that fills a hole. -/
theorem availableIndices_gaps_sample :
    ∃ l : PaxosLog ℕ, (∃ calls, (register []).setEntries
        [(0, .notSet), (0, .reconfigFinished), (3, .notSet), (1, .notSet)] = .ok (l, calls)) ∧
      l.getAvailableIndices.Pairwise (· < ·) := by
  obtain ⟨l, calls, m, hset, -, hascending, -⟩ := availableIndices_gaps ([] : List (_ × ℕ))
    [(0, .notSet), (0, .reconfigFinished), (3, .notSet), (1, .notSet)] (by decide)
  exact ⟨l, ⟨calls, hset⟩, hascending⟩

example :
    ((register ([] : List (EntryContentCase × ℕ))).setEntries
      [(0, .notSet), (0, .reconfigFinished), (3, .notSet), (1, .notSet)]).toOption.map
        (fun r => r.1.getAvailableIndices) = some [2, 4] := by
  decide

end UniversalDB.PaxosLog
