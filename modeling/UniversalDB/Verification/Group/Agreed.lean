import UniversalDB.Library.AgreedLog
import UniversalDB.Verification.Group.Agreement

/-! # The log that a group agrees on -/

namespace UniversalDB.Group

variable {n : ℕ} {trace : List (Event n)} {s : State n} {index : ℕ} {e e' : PaxosLogEntry}

/-! ## Learned entries -/

theorem LearnedAt.unique (h : (restricted n LastIsGreatest).Run trace s)
    (he : LearnedAt trace index e) (he' : LearnedAt trace index e') : e = e' := by
  obtain ⟨d, r, hlearned⟩ := he
  obtain ⟨d', r', hlearned'⟩ := he'
  obtain ⟨t, hview, -⟩ := simulation h index
  exact Synod.learned_unique (majority_majority n _)
    (fun own _ => selectsGreatest_of_lastIsGreatest own) hview (mem_view hlearned)
    (mem_view hlearned')

theorem LearnedAt.proposed (h : (machine n).system.Run trace s) (he : LearnedAt trace index e) :
    ∃ i, .proposed i index e ∈ trace := by
  obtain ⟨d, r, hlearned⟩ := he
  obtain ⟨t, hview, -⟩ := simulation (restricted_of_run h) index
  obtain ⟨i, hi⟩ := Synod.proposed_of_learned (majority_majority n _) proposalValue_reported
    hview (mem_view hlearned)
  exact ⟨i, proposed_of_mem_view hi⟩

/-- The indices with a learned entry have no gap. -/
theorem LearnedAt.below (h : (machine n).system.Run trace s) (he : LearnedAt trace index e)
    {k : ℕ} (hk : k < index) : ∃ e', LearnedAt trace k e' := by
  obtain ⟨i, hi⟩ := he.proposed h
  exact (logInv_of_run h).proposed i index e hi k hk

theorem proposed_lt (h : (machine n).system.Run trace s) {i : Fin n}
    (hmem : .proposed i index e ∈ trace) : index < 2 ^ 32 := by
  obtain ⟨before, after, htrace⟩ := List.append_of_mem hmem
  obtain ⟨past, s₀, events, s₁, pre, post, -, ⟨a, -, hnext⟩, hevents, -⟩ := h.split htrace
  have hin : .proposed i index e ∈ events := by simp [hevents]
  have hmove := move_of_next hnext
  cases hmove with
  | propose _ hlt _ =>
      cases List.mem_singleton.mp hin
      exact hlt
  | paxos _ hcall hset => exact absurd hin (proposed_not_shown _ _ _ i index e)
  | _ => cases hin

/-! ## The agreed log of a run -/

/-- The entries of the agreed log are the learned ones, and it holds all proposals. -/
structure Agreed (trace : List (Event n)) (L : AgreedLog PaxosLogEntry) : Prop where
  entries : ∀ index e, L.entries[index]? = some e ↔ LearnedAt trace index e
  proposals : ∀ i index e, .proposed i index e ∈ trace → (index, e) ∈ L.proposals

variable {L : AgreedLog PaxosLogEntry}

theorem agreed_empty : Agreed ([] : List (Event n)) .empty := by
  constructor
  · intro index e
    simp [AgreedLog.empty, LearnedAt]
  · intro i index e hmem
    cases hmem

theorem Agreed.frame (h : Agreed trace L) {events : List (Event n)}
    (hlearned : ∀ d index r e, .learned d index r e ∉ events)
    (hproposed : ∀ i index e, .proposed i index e ∉ events) : Agreed (trace ++ events) L := by
  constructor
  · intro index e
    rw [h.entries]
    constructor
    · exact fun he => he.append events
    · rintro ⟨d, r, hmem⟩
      exact ⟨d, r, (List.mem_append.mp hmem).resolve_right (hlearned d index r e)⟩
  · intro i index e hmem
    exact h.proposals i index e ((List.mem_append.mp hmem).resolve_right (hproposed i index e))

theorem Agreed.propose (h : Agreed trace L) (i : Fin n) (index : ℕ) (e : PaxosLogEntry) :
    Agreed (trace ++ [.proposed i index e]) (L.propose index e) := by
  constructor
  · intro index' e'
    simp only [AgreedLog.propose, h.entries, LearnedAt, List.mem_append, List.mem_singleton,
      reduceCtorEq, or_false]
  · intro i' index' e' hmem
    simp only [AgreedLog.propose, List.mem_append, List.mem_singleton] at hmem ⊢
    rcases hmem with hold | hnew
    · exact .inl (h.proposals i' index' e' hold)
    · cases hnew
      exact .inr rfl

/-- The learned entries fill the positions up to the length of the agreed log. -/
theorem Agreed.lt_length (h : Agreed trace L) (he : LearnedAt trace index e) :
    index < L.entries.length :=
  (List.getElem?_eq_some_iff.mp ((h.entries index e).mpr he)).1

theorem Agreed.length_le (h : Agreed trace L) (hrun : (machine n).system.Run trace s) :
    L.entries.length ≤ 2 ^ 32 := by
  by_contra hlt
  obtain ⟨e, he⟩ : ∃ e, L.entries[2 ^ 32]? = some e :=
    ⟨_, List.getElem?_eq_getElem (by omega)⟩
  obtain ⟨i, hi⟩ := ((h.entries _ e).mp he).proposed hrun
  have hindex := proposed_lt hrun hi
  omega

/-- A node learns a value: the agreed log has it, or takes it as its next entry. -/
theorem Agreed.learn (h : Agreed trace L) {d : Fin n} {r : ℕ}
    (hrun : (restricted n LastIsGreatest).Run (trace ++ [.learned d index r e]) s) :
    ∃ L', (L' = L ∨ ∃ k, L.choose k = some L') ∧
      Agreed (trace ++ [.learned d index r e]) L' ∧ L'.entries[index]? = some e := by
  have hrun' := run_of_restricted hrun
  have hlearned : LearnedAt (trace ++ [.learned d index r e]) index e :=
    ⟨d, r, List.mem_append_right _ (List.mem_singleton_self _)⟩
  have hcases : ∀ index' e', LearnedAt (trace ++ [.learned d index r e]) index' e' ↔
      LearnedAt trace index' e' ∨ (index' = index ∧ e' = e) := by
    intro index' e'
    constructor
    · rintro ⟨d', r', hmem⟩
      rcases List.mem_append.mp hmem with hold | hnew
      · exact .inl ⟨d', r', hold⟩
      · cases List.mem_singleton.mp hnew
        exact .inr ⟨rfl, rfl⟩
    · rintro (hold | ⟨rfl, rfl⟩)
      · exact hold.append _
      · exact hlearned
  have hproposals : ∀ i index' e', .proposed i index' e' ∈ trace ++ [.learned d index r e] →
      (index', e') ∈ L.proposals := by
    intro i index' e' hmem
    exact h.proposals i index' e' (by simpa using hmem)
  -- everything before the index has been learned earlier
  have hle : index ≤ L.entries.length := by
    by_contra hlt
    obtain ⟨e', he'⟩ := hlearned.below hrun' (k := L.entries.length) (by omega)
    rcases (hcases _ _).mp he' with hold | ⟨hindex, -⟩
    · exact absurd (h.lt_length hold) (lt_irrefl _)
    · omega
  rcases Nat.lt_or_eq_of_le hle with hlt | rfl
  · obtain ⟨e', he'⟩ : ∃ e', L.entries[index]? = some e' :=
      ⟨_, List.getElem?_eq_getElem hlt⟩
    have hold := (h.entries index e').mp he'
    obtain rfl : e' = e := (hold.append _).unique hrun hlearned
    refine ⟨L, .inl rfl, ⟨?_, hproposals⟩, he'⟩
    intro index' e''
    rw [h.entries, hcases]
    constructor
    · exact .inl
    · rintro (hold' | ⟨rfl, rfl⟩)
      · exact hold'
      · exact hold
  · obtain ⟨i, hi⟩ := hlearned.proposed hrun'
    obtain ⟨k, hk⟩ := AgreedLog.exists_choose (hproposals i _ e hi)
    refine ⟨_, .inr ⟨k, hk⟩, ⟨?_, hproposals⟩, List.getElem?_concat_length⟩
    intro index' e'
    rw [hcases, ← h.entries, List.getElem?_append]
    split
    · rename_i hlt
      constructor
      · exact .inl
      · rintro (hold | ⟨rfl, rfl⟩)
        · exact hold
        · exact absurd hlt (lt_irrefl _)
    · rename_i hlt
      have hnone : L.entries[index']? = none := List.getElem?_eq_none (by omega)
      rw [hnone, List.getElem?_singleton]
      constructor
      · intro hsome
        split at hsome
        · rename_i hzero
          exact .inr ⟨by omega, (Option.some.inj hsome).symm⟩
        · cases hsome
      · rintro (hold | ⟨rfl, rfl⟩)
        · cases hold
        · simp

end UniversalDB.Group
