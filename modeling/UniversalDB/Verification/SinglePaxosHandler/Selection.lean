import UniversalDB.Verification.Group.Agreement

/-! # Value selection

Which value the Accept message carries that answers a majority of promises. -/

namespace UniversalDB.SinglePaxosHandler

open UniversalDB.Group (LastIsGreatest proposalValue_eq)

variable {ε : Type}

/-- A sequence of Promise messages for one proposal number. -/
def promises (h : SinglePaxosHandler ε) (rnd : ℕ) :
    List (ℕ × PaxosLogEntry) →
      Except UniversalException (SinglePaxosHandler ε × List (Effect ε))
  | [] => return (h, [])
  | (vrnd, vval) :: received => do
      let (h₁, effects₁) ← h.promise rnd vrnd vval
      let (h₂, effects₂) ← h₁.promises rnd received
      return (h₂, effects₁ ++ effects₂)

/-- The rule of Paxos: the value of a greatest vote, or the proposer's own value if there
is no vote. -/
structure Selected (own : PaxosLogEntry) (counted : List (ℕ × PaxosLogEntry))
    (value : PaxosLogEntry) : Prop where
  greatest : (∃ p ∈ counted, 0 < p.1) →
    ∃ p ∈ counted, value = p.2 ∧ ∀ q ∈ counted, q.1 ≤ p.1
  own : (∀ p ∈ counted, p.1 = 0) → value = own

/-- A handler that waits for promises for a proposal number: it has counted some, but not
yet a majority. -/
structure Waiting (h : SinglePaxosHandler ε) (rnd : ℕ) (own : PaxosLogEntry)
    (counted : List (ℕ × PaxosLogEntry)) : Prop where
  proposal : h.proposerState.proposal rnd = some own
  prepareState : h.proposerState.prepareState rnd = some counted
  part : counted.length < h.majorityThreshold

variable {h : SinglePaxosHandler ε} {rnd : ℕ} {own : PaxosLogEntry}
  {counted : List (ℕ × PaxosLogEntry)}

/-! ## The loop -/

theorem proposalValue_of_votes_nil (hnone : ∀ p ∈ counted, p.1 = 0) :
    proposalValue own counted = own := by
  have hvotes : counted.filter (fun p => 0 < p.1) = [] := by
    rw [List.filter_eq_nil_iff]
    intro p hp
    simp [hnone p hp]
  rw [proposalValue_eq, hvotes]
  rfl

/-- The loop follows the rule exactly when the last vote is as good as a greatest one. -/
theorem selected_proposalValue_iff :
    Selected own counted (proposalValue own counted) ↔ LastIsGreatest counted := by
  constructor
  · intro hselected last hlast
    have hmem := List.mem_of_getLast? hlast
    rw [List.mem_filter, decide_eq_true_eq] at hmem
    obtain ⟨p, hp, hvalue, hgreatest⟩ := hselected.greatest ⟨last, hmem⟩
    rw [proposalValue_eq, Option.mem_def.mp hlast] at hvalue
    exact ⟨p, hp, hvalue.symm, hgreatest⟩
  · intro hlast
    refine ⟨?_, proposalValue_of_votes_nil⟩
    rintro ⟨p, hp, hpos⟩
    cases hvote : (counted.filter fun p => 0 < p.1).getLast? with
    | none =>
        rw [List.getLast?_eq_none_iff, List.filter_eq_nil_iff] at hvote
        exact absurd (decide_eq_true hpos) (hvote p hp)
    | some last =>
        obtain ⟨q, hq, hvalue, hgreatest⟩ := hlast last hvote
        refine ⟨q, hq, ?_, hgreatest⟩
        rw [proposalValue_eq, hvote, hvalue]
        rfl

/-! ## The messages -/

@[simp] theorem withPromises_majorityThreshold :
    (h.withPromises rnd counted).majorityThreshold = h.majorityThreshold := rfl

/-- Once a majority is counted, further promises are dropped. -/
theorem promises_of_full (hstate : h.proposerState.prepareState rnd = some counted)
    (hfull : h.majorityThreshold ≤ counted.length) (received : List (ℕ × PaxosLogEntry)) :
    h.promises rnd received = .ok (h, []) := by
  induction received with
  | nil => rfl
  | cons p received ih =>
      have hstep : h.promise rnd p.1 p.2 = .ok (h, []) := by
        simp only [promise, hstate]
        rw [if_neg (by omega)]
      simp only [promises, hstep, bind, Except.bind, ih]
      rfl

/-- A promise is counted, and the one that completes a majority is answered. -/
theorem Waiting.promise (hwaiting : h.Waiting rnd own counted) (p : ℕ × PaxosLogEntry) :
    h.promise rnd p.1 p.2 = .ok (h.withPromises rnd (counted ++ [p]),
      if counted.length + 1 = h.majorityThreshold then
        [.broadcast h.configEndpoints
          (h.message (.accept rnd (proposalValue own (counted ++ [p]))))]
      else []) := by
  simp only [SinglePaxosHandler.promise, hwaiting.prepareState, hwaiting.proposal,
    List.length_append, List.length_singleton]
  rw [if_pos hwaiting.part]
  split <;> rfl

/-- The Accept message answers the promises that complete the majority. -/
theorem Waiting.promises (received : List (ℕ × PaxosLogEntry)) :
    ∀ {h : SinglePaxosHandler ε} {counted : List (ℕ × PaxosLogEntry)},
      h.Waiting rnd own counted → h.majorityThreshold ≤ counted.length + received.length →
      ∃ h', h.promises rnd received = .ok (h', [.broadcast h.configEndpoints
        (h.message (.accept rnd (proposalValue own
          (counted ++ received.take (h.majorityThreshold - counted.length)))))]) := by
  induction received with
  | nil =>
      intro h counted hwaiting hlength
      have hpart := hwaiting.part
      simp only [List.length_nil] at hlength
      omega
  | cons p received ih =>
      intro h counted hwaiting hlength
      have hpart := hwaiting.part
      have hstate : (h.withPromises rnd (counted ++ [p])).proposerState.prepareState rnd =
          some (counted ++ [p]) := by
        simp [withPromises]
      have hstep := hwaiting.promise p
      by_cases hfull : counted.length + 1 = h.majorityThreshold
      · have hrest : h.majorityThreshold - counted.length = 1 := by omega
        have htail := promises_of_full hstate (by simp [hfull]) received
        rw [if_pos hfull] at hstep
        refine ⟨h.withPromises rnd (counted ++ [p]), ?_⟩
        simp only [SinglePaxosHandler.promises, hstep, bind, Except.bind, htail, hrest]
        rfl
      · have hwaiting' : (h.withPromises rnd (counted ++ [p])).Waiting rnd own
            (counted ++ [p]) := by
          refine ⟨hwaiting.proposal, hstate, ?_⟩
          rw [withPromises_majorityThreshold, List.length_append, List.length_singleton]
          omega
        have hrest : h.majorityThreshold - counted.length =
            h.majorityThreshold - (counted.length + 1) + 1 := by omega
        obtain ⟨h', htail⟩ := ih hwaiting' (by
          simp only [withPromises_majorityThreshold, List.length_append,
            List.length_cons] at hlength ⊢
          omega)
        rw [if_neg hfull] at hstep
        refine ⟨h', ?_⟩
        simp only [withPromises_majorityThreshold, List.length_append,
          List.length_singleton, List.append_assoc, List.singleton_append] at htail
        simp only [SinglePaxosHandler.promises, hstep, bind, Except.bind, htail, hrest,
          List.take_succ_cons]
        rfl

/-- Whatever promises have been counted and whatever promises arrive, the Accept message
that answers the majority follows the rule exactly when the last vote that it counts
carries the value of a greatest one. -/
theorem accept_selected_iff (hwaiting : h.Waiting rnd own counted)
    (received : List (ℕ × PaxosLogEntry))
    (hmajority : h.majorityThreshold ≤ counted.length + received.length) :
    ∃ h' value, h.promises rnd received = .ok (h', [.broadcast h.configEndpoints
        (h.message (.accept rnd value))]) ∧
      (Selected own (counted ++ received.take (h.majorityThreshold - counted.length)) value ↔
        LastIsGreatest
          (counted ++ received.take (h.majorityThreshold - counted.length))) := by
  obtain ⟨h', hpromises⟩ := hwaiting.promises received hmajority
  exact ⟨h', _, hpromises, selected_proposalValue_iff⟩

/-- A handler that has proposed an entry with number 3 in a group of three. -/
def proposed : SinglePaxosHandler ℕ :=
  ((new ⟨3⟩ 0 [0, 1, 2] : SinglePaxosHandler ℕ).propose 3 .reconfigFinished).1

theorem proposed_waiting : proposed.Waiting 3 .reconfigFinished [] :=
  ⟨rfl, rfl, by decide⟩

theorem accept_selected_iff_ascending :
    ∃ h' value, proposed.promises 3 [(1, .notSet), (2, .keySpaceChanged ⟨[], 1⟩)] =
        .ok (h', [.broadcast [0, 1, 2] (proposed.message (.accept 3 value))]) ∧
      Selected .reconfigFinished [(1, .notSet), (2, .keySpaceChanged ⟨[], 1⟩)] value := by
  obtain ⟨h', value, hpromises, hiff⟩ := accept_selected_iff proposed_waiting
    [(1, .notSet), (2, .keySpaceChanged ⟨[], 1⟩)] (by decide)
  exact ⟨h', value, hpromises, hiff.mpr (by decide)⟩

/-- The vote of number 1 arrives after the vote of number 2 and is sent; in the other
order it is not. -/
theorem accept_not_selected :
    ¬ (∀ (h : SinglePaxosHandler ℕ) (rnd : ℕ) (own : PaxosLogEntry)
        (received : List (ℕ × PaxosLogEntry)), h.Waiting rnd own [] →
        received.length = h.majorityThreshold →
        ∀ h' value, h.promises rnd received = .ok (h', [.broadcast h.configEndpoints
          (h.message (.accept rnd value))]) → Selected own received value) ∧
      (proposed.promises 3 [(2, .keySpaceChanged ⟨[], 1⟩), (1, .notSet)]).toOption.map
          Prod.snd ≠
        (proposed.promises 3 [(1, .notSet), (2, .keySpaceChanged ⟨[], 1⟩)]).toOption.map
          Prod.snd := by
  constructor
  · intro hselected
    have hcase := hselected proposed 3 .reconfigFinished
      [(2, .keySpaceChanged ⟨[], 1⟩), (1, .notSet)] proposed_waiting (by decide) _ .notSet rfl
    obtain ⟨p, hp, hvalue, hgreatest⟩ := hcase.greatest ⟨_, List.mem_cons_self, by decide⟩
    have htwo := hgreatest _ List.mem_cons_self
    rcases List.mem_cons.mp hp with rfl | hp
    · cases hvalue
    · cases List.mem_singleton.mp hp
      exact absurd htwo (by decide)
  · decide

end UniversalDB.SinglePaxosHandler
