import UniversalDB.Model.PaxosInstance
import UniversalDB.Verification.SinglePaxosHandler.Selection

/-! # Proposal numbers -/

namespace UniversalDB.PaxosInstance

open SinglePaxosHandler MultiPaxosHandler

variable {ε : Type} {h h' : SinglePaxosHandler ε} {trace events : List Event}

/-! ## Steps -/

theorem next_propose {draw : ℕ} {entry : PaxosLogEntry}
    (hnext : next h (.propose draw entry) = some (events, h')) :
    events = [.prepared draw (h.proposerState.latest + draw) entry] ∧
      h' = (h.propose draw entry).1 ∧
      h'.proposerState.latest = h.proposerState.latest + draw ∧
      h'.proposerState.proposal =
        h.proposerState.proposal.insert (h.proposerState.latest + draw) entry := by
  simp only [next] at hnext
  split at hnext
  · rename_i hrange
    have hmod : h.nextProposalNumber draw = h.proposerState.latest + draw :=
      Nat.mod_eq_of_lt hrange.2
    cases hnext
    refine ⟨?_, rfl, ?_, ?_⟩ <;> simp only [SinglePaxosHandler.propose, hmod]
    rfl
  · cases hnext

theorem next_handle {src : ε} {content : PaxosMessage.Content}
    (hnext : next h (.handle src content) = some (events, h')) :
    ∃ effects, Handled h src content h' effects ∧ events = shown h h' effects content := by
  simp only [next] at hnext
  split at hnext
  · rename_i effects hcall
    cases hnext
    exact ⟨effects, handled_of_dispatch hcall, rfl⟩
  · cases hnext

/-- Messages change neither the proposals nor the latest number. -/
theorem proposals_of_handled {src : ε} {content : PaxosMessage.Content}
    {effects : List (Effect ε)} (hhandled : Handled h src content h' effects) :
    h'.proposerState.latest = h.proposerState.latest ∧
      h'.proposerState.proposal = h.proposerState.proposal := by
  cases hhandled <;> exact ⟨rfl, rfl⟩

theorem prepared_not_shown {effects : List (Effect ε)} {content : PaxosMessage.Content}
    {draw number : ℕ} {entry : PaxosLogEntry} :
    .prepared draw number entry ∉ shown h h' effects content := by
  cases content <;> simp only [shown, shownMajority, List.not_mem_nil, not_false_eq_true]
  split
  · split <;> simp
  · simp

/-- A majority of promises is answered by one Accept message. -/
theorem majority_shown {src : ε} {content : PaxosMessage.Content}
    {effects : List (Effect ε)} (hhandled : Handled h src content h' effects) {rnd : ℕ}
    {counted : List (ℕ × PaxosLogEntry)} {vvals : List PaxosLogEntry}
    (hmem : .majority rnd counted vvals ∈ shown h h' effects content) :
    shown h h' effects content = [.majority rnd counted vvals] ∧
      ∃ own, h.proposerState.proposal rnd = some own ∧
        vvals = [proposalValue own counted] := by
  cases hhandled with
  | ignored =>
      cases content <;> simp only [shown, shownMajority, List.not_mem_nil] at hmem
      split at hmem
      · rename_i before after hbefore hafter
        rw [hbefore] at hafter
        cases hafter
        rw [if_neg (by omega)] at hmem
        cases hmem
      · cases hmem
  | counted hstate hlt =>
      simp only [shown, shownMajority, hstate, withPromises, KeyMap.assign_self] at hmem
      rw [List.length_append, List.length_singleton, if_neg (by omega)] at hmem
      cases hmem
  | opened hstate hfull hown =>
      simp only [shown, shownMajority, hstate, withPromises, KeyMap.assign_self] at hmem ⊢
      rw [List.length_append, List.length_singleton, if_pos (by omega)] at hmem ⊢
      cases List.mem_singleton.mp hmem
      exact ⟨rfl, _, hown, by simp [acceptValue, message]⟩
  | _ => cases hmem

/-! ## Numbers -/

/-- The last number before a call, zero if there is none. -/
structure Latest (trace : List Event) (latest : ℕ) : Prop where
  bound : ∀ draw number entry, .prepared draw number entry ∈ trace → number ≤ latest
  shown : latest = 0 ∨ ∃ draw entry, .prepared draw latest entry ∈ trace

/-- Every number of a trace is the last one before it with its draw added. -/
def Numbered (trace : List Event) : Prop :=
  ∀ before draw number entry after, trace = before ++ .prepared draw number entry :: after →
    ∃ latest, number = latest + draw ∧ Latest before latest

/-- What a handler knows of its Prepare messages. The first entry for a number stays. -/
structure NumbersInv (trace : List Event) (h : SinglePaxosHandler ε) : Prop where
  latest : Latest trace h.proposerState.latest
  numbered : Numbered trace
  proposal : ∀ number own, h.proposerState.proposal number = some own →
    ∃ draw, .prepared draw number own ∈ trace

theorem Latest.append (hlatest : Latest trace h.proposerState.latest)
    (hnone : ∀ draw number entry, .prepared draw number entry ∉ events) :
    Latest (trace ++ events) h.proposerState.latest := by
  constructor
  · intro draw number entry hmem
    rcases List.mem_append.mp hmem with hold | hnew
    · exact hlatest.bound draw number entry hold
    · exact absurd hnew (hnone draw number entry)
  · rcases hlatest.shown with hzero | ⟨draw, entry, hmem⟩
    · exact .inl hzero
    · exact .inr ⟨draw, entry, List.mem_append_left _ hmem⟩

theorem Numbered.append (hnumbered : Numbered trace)
    (hnew : ∀ pre draw number entry post, events = pre ++ .prepared draw number entry :: post →
      ∃ latest, number = latest + draw ∧ Latest (trace ++ pre) latest) :
    Numbered (trace ++ events) := by
  intro before draw number entry after heq
  rcases append_eq_append_cons heq with ⟨pre, rfl, hevents⟩ | ⟨tail, htrace, -⟩
  · exact hnew pre draw number entry after hevents
  · exact hnumbered before draw number entry tail htrace

theorem NumbersInv.propose (hinv : NumbersInv trace h) {draw : ℕ} {entry : PaxosLogEntry}
    (hnext : next h (.propose draw entry) = some (events, h')) :
    NumbersInv (trace ++ events) h' := by
  obtain ⟨rfl, -, hlatest, hproposal⟩ := next_propose hnext
  constructor
  · rw [hlatest]
    constructor
    · intro draw' number entry' hmem
      rcases List.mem_append.mp hmem with hold | hnew
      · exact (hinv.latest.bound draw' number entry' hold).trans (Nat.le_add_right _ _)
      · cases List.mem_singleton.mp hnew
        exact Nat.le_refl _
    · exact .inr ⟨draw, entry, by simp⟩
  · apply hinv.numbered.append
    intro pre draw' number entry' post heq
    obtain ⟨rfl, heq, rfl⟩ : pre = [] ∧
        Event.prepared draw (h.proposerState.latest + draw) entry =
          .prepared draw' number entry' ∧ post = [] := by
      cases pre with
      | nil => simpa [eq_comm] using heq
      | cons e pre => simp at heq
    cases heq
    exact ⟨_, rfl, by simpa using hinv.latest⟩
  · intro number own hown
    rw [hproposal, KeyMap.insert_apply] at hown
    split at hown
    · rename_i heq
      subst number
      cases hold : h.proposerState.proposal (h.proposerState.latest + draw) with
      | none =>
          rw [hold] at hown
          cases hown
          exact ⟨draw, by simp⟩
      | some first =>
          rw [hold] at hown
          cases hown
          obtain ⟨d, hd⟩ := hinv.proposal _ _ hold
          exact ⟨d, List.mem_append_left _ hd⟩
    · obtain ⟨d, hd⟩ := hinv.proposal number own hown
      exact ⟨d, List.mem_append_left _ hd⟩

theorem NumbersInv.handle (hinv : NumbersInv trace h) {src : ε}
    {content : PaxosMessage.Content}
    (hnext : next h (.handle src content) = some (events, h')) :
    NumbersInv (trace ++ events) h' := by
  obtain ⟨effects, hhandled, rfl⟩ := next_handle hnext
  obtain ⟨hlatest, hproposal⟩ := proposals_of_handled hhandled
  constructor
  · rw [hlatest]
    exact hinv.latest.append fun _ _ _ => prepared_not_shown
  · apply hinv.numbered.append
    intro pre draw number entry post heq
    have hmem : .prepared draw number entry ∈ shown h h' effects content := by simp [heq]
    exact absurd hmem prepared_not_shown
  · intro number own hown
    rw [hproposal] at hown
    obtain ⟨d, hd⟩ := hinv.proposal number own hown
    exact ⟨d, List.mem_append_left _ hd⟩

section Runs

variable {constants : Constants} {paxosLogIndex : ℕ} {configEndpoints : List ε}

theorem numbersInv_of_run
    (hrun : (machine constants paxosLogIndex configEndpoints).system.Run trace h) :
    NumbersInv trace h := by
  apply hrun.invariant
  · rintro s rfl
    refine ⟨⟨?_, .inl rfl⟩, ?_, ?_⟩
    · intro draw number entry hmem
      cases hmem
    · intro before draw number entry after heq
      simp at heq
    · intro number own hown
      cases hown
  · rintro past s events s' - hinv ⟨a, -, hnext⟩
    cases a with
    | propose draw entry => exact hinv.propose hnext
    | handle src content => exact hinv.handle hnext

/-! ## Freshness -/

/-- Every number is positive and greater than the numbers before it, and promises of a
majority without a vote are answered with the entry the number was drawn for. -/
structure Fresh (trace : List Event) : Prop where
  greater : ∀ before draw number entry after,
    trace = before ++ .prepared draw number entry :: after →
      0 < number ∧ ∀ draw' number' entry', .prepared draw' number' entry' ∈ before →
        number' < number
  answered : ∀ before draw number entry between counted vvals after,
    trace = before ++ .prepared draw number entry ::
      (between ++ .majority number counted vvals :: after) →
      (∀ p ∈ counted, p.1 = 0) → vvals = [entry]

/-- Every draw was at least one. -/
def Drawn (trace : List Event) : Prop :=
  ∀ draw number entry, .prepared draw number entry ∈ trace → 0 < draw

theorem Numbered.greater_iff (hnumbered : Numbered trace) :
    (∀ before draw number entry after,
      trace = before ++ .prepared draw number entry :: after →
        0 < number ∧ ∀ draw' number' entry', .prepared draw' number' entry' ∈ before →
          number' < number) ↔ Drawn trace := by
  constructor
  · intro hgreater draw number entry hmem
    obtain ⟨before, after, heq⟩ := List.append_of_mem hmem
    obtain ⟨latest, rfl, hlatest⟩ := hnumbered before draw number entry after heq
    obtain ⟨hpos, hbefore⟩ := hgreater before draw _ entry after heq
    rcases hlatest.shown with rfl | ⟨draw', entry', hmem'⟩
    · omega
    · have hlt := hbefore draw' latest entry' hmem'
      omega
  · intro hdrawn before draw number entry after heq
    have hmem : .prepared draw number entry ∈ trace := by simp [heq]
    have hpos := hdrawn draw number entry hmem
    obtain ⟨latest, rfl, hlatest⟩ := hnumbered before draw number entry after heq
    refine ⟨by omega, ?_⟩
    intro draw' number' entry' hmem'
    have hle := hlatest.bound draw' number' entry' hmem'
    omega

/-- With positive draws the entries of a number are one entry. -/
theorem Numbered.entry_unique (hnumbered : Numbered trace) (hdrawn : Drawn trace)
    {draw draw' number : ℕ} {entry entry' : PaxosLogEntry}
    (hmem : .prepared draw number entry ∈ trace)
    (hmem' : .prepared draw' number entry' ∈ trace) : entry = entry' := by
  have hgreater := hnumbered.greater_iff.mpr hdrawn
  obtain ⟨before, after, heq⟩ := List.append_of_mem hmem
  rw [heq] at hmem'
  rcases List.mem_append.mp hmem' with hbefore | hafter
  · have hlt := (hgreater before draw number entry after heq).2 draw' number entry' hbefore
    omega
  · rcases List.mem_cons.mp hafter with hsame | hlater
    · cases hsame
      rfl
    · obtain ⟨between, rest, rfl⟩ := List.append_of_mem hlater
      have hlt := (hgreater (before ++ .prepared draw number entry :: between) draw' number
        entry' rest (by simp [heq])).2 draw number entry (by simp)
      omega

/-- A majority that is shown in a run was answered from the proposal for its number. -/
theorem majority_answered
    (hrun : (machine constants paxosLogIndex configEndpoints).system.Run trace h)
    {before after : List Event} {number : ℕ} {counted : List (ℕ × PaxosLogEntry)}
    {vvals : List PaxosLogEntry}
    (heq : trace = before ++ .majority number counted vvals :: after) :
    ∃ own, (∃ draw, .prepared draw number own ∈ trace) ∧
      vvals = [proposalValue own counted] := by
  obtain ⟨past, s, events, s', pre, post, hpast, ⟨a, -, hnext⟩, hevents, rfl⟩ :=
    hrun.split heq
  cases a with
  | propose draw entry =>
      obtain ⟨hshown, -⟩ := next_propose hnext
      rw [hevents] at hshown
      cases pre <;> simp at hshown
  | handle src content =>
      obtain ⟨effects, hhandled, hshown⟩ := next_handle hnext
      have hmem : .majority number counted vvals ∈ shown s s' effects content := by
        rw [← hshown, hevents]
        simp
      obtain ⟨-, own, hown, hvvals⟩ := majority_shown hhandled hmem
      obtain ⟨draw, hdraw⟩ := (numbersInv_of_run hpast).proposal number own hown
      refine ⟨own, ⟨draw, ?_⟩, hvvals⟩
      rw [heq]
      simp [hdraw]

/-- The proposal numbers of a handler are fresh exactly when no draw is zero. -/
theorem fresh_iff_drawn
    (hrun : (machine constants paxosLogIndex configEndpoints).system.Run trace h) :
    Fresh trace ↔ Drawn trace := by
  have hnumbered := (numbersInv_of_run hrun).numbered
  constructor
  · exact fun hfresh => hnumbered.greater_iff.mp hfresh.greater
  · intro hdrawn
    refine ⟨hnumbered.greater_iff.mpr hdrawn, ?_⟩
    intro before draw number entry between counted vvals after heq hzero
    have hmajority : trace = (before ++ .prepared draw number entry :: between) ++
        .majority number counted vvals :: after := by simp [heq]
    obtain ⟨own, ⟨draw', hmem'⟩, hvvals⟩ := majority_answered hrun hmajority
    have hmem : .prepared draw number entry ∈ trace := by simp [heq]
    rw [hvvals, proposalValue_of_votes_nil hzero,
      hnumbered.entry_unique hdrawn hmem' hmem]

end Runs

/-- An entry is proposed with draw `draw`, after another one with draw 5, and a majority
promises the number 5 without a vote. -/
def retryActions (draw : ℕ) : List (Action ℕ) :=
  [.propose 5 .reconfigFinished, .propose draw (.keySpaceChanged ⟨[], 1⟩),
    .handle 0 (.promise 5 0 .notSet), .handle 1 (.promise 5 0 .notSet)]

theorem fresh_iff_drawn_retry :
    ∃ trace h, (machine ⟨3⟩ 0 [0, 1, 2]).system.Run trace h ∧
      .prepared 4 9 (.keySpaceChanged ⟨[], 1⟩) ∈ trace ∧ Fresh trace := by
  obtain ⟨trace, h, hrun, htrace⟩ := (machine ⟨3⟩ 0 [0, 1, 2]).exists_run (retryActions 4)
    (p := fun r => r.1 = [.prepared 5 5 .reconfigFinished,
      .prepared 4 9 (.keySpaceChanged ⟨[], 1⟩),
      .majority 5 [(0, .notSet), (0, .notSet)] [.reconfigFinished]])
    (by decide +kernel)
  simp only at htrace
  refine ⟨trace, h, hrun, by simp [htrace], (fresh_iff_drawn hrun).mpr ?_⟩
  intro draw number entry hmem
  rw [htrace] at hmem
  simp only [List.mem_cons, Event.prepared.injEq, reduceCtorEq, List.not_mem_nil,
    or_false] at hmem
  omega

/-- A draw of zero repeats the number, and the Accept message carries the older entry. -/
theorem stale_number :
    ¬ ∀ (constants : Constants) (paxosLogIndex : ℕ) (configEndpoints : List ℕ)
        (trace : List Event) (h : SinglePaxosHandler ℕ),
        (machine constants paxosLogIndex configEndpoints).system.Run trace h →
        Fresh trace := by
  intro hfresh
  obtain ⟨trace, h, hrun, htrace⟩ := (machine ⟨3⟩ 0 [0, 1, 2]).exists_run (retryActions 0)
    (p := fun r => r.1 = [.prepared 5 5 .reconfigFinished,
      .prepared 0 5 (.keySpaceChanged ⟨[], 1⟩),
      .majority 5 [(0, .notSet), (0, .notSet)] [.reconfigFinished]])
    (by decide +kernel)
  have hanswered := (hfresh _ _ _ trace h hrun).answered [.prepared 5 5 .reconfigFinished]
    0 5 (.keySpaceChanged ⟨[], 1⟩) [] [(0, .notSet), (0, .notSet)] [.reconfigFinished] []
    htrace (by decide)
  cases hanswered

end UniversalDB.PaxosInstance
