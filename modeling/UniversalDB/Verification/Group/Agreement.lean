import UniversalDB.Verification.Group.Logs

/-! # Safety of a group -/

namespace UniversalDB.Group

open SinglePaxosHandler MultiPaxosHandler

variable {n : ℕ}

theorem majority_majority (n : ℕ) (ok : List (ℕ × PaxosLogEntry) → Prop) :
    Fintype.card (Fin n) < 2 * (protocol n ok).quorum := by
  simp only [Fintype.card_fin, protocol]
  omega

/-- A majority of the nodes has accepted a value at an index. -/
def AcceptedByMajority (trace : List (Event n)) (index vrnd : ℕ) (vval : PaxosLogEntry) :
    Prop :=
  Voting.Quorum (n / 2 + 1) fun a => .accepted a index vrnd vval ∈ trace

theorem mem_view {trace : List (Event n)} {event : Event n} (h : event ∈ trace) :
    event.body ∈ trace.filterMap (eventView event.index) :=
  List.mem_filterMap.mpr ⟨event, h, eventView_self event⟩

theorem mem_of_mem_view {trace : List (Event n)} {index : ℕ}
    {event : Synod.Event (Fin n) PaxosLogEntry}
    (h : event ∈ trace.filterMap (eventView index)) :
    ∃ e ∈ trace, e.index = index ∧ e.body = event := by
  obtain ⟨e, he, hview⟩ := List.mem_filterMap.mp h
  simp only [eventView] at hview
  split at hview
  · rename_i hindex
    exact ⟨e, he, hindex, Option.some.inj hview⟩
  · cases hview

theorem accepted_of_mem_view {trace : List (Event n)} {index r : ℕ} {a : Fin n}
    {v : PaxosLogEntry} (h : .accepted a r v ∈ trace.filterMap (eventView index)) :
    .accepted a index r v ∈ trace := by
  obtain ⟨e, he, hindex, hbody⟩ := mem_of_mem_view h
  cases e <;> cases hbody
  cases hindex
  exact he

theorem proposed_of_mem_view {trace : List (Event n)} {index : ℕ} {i : Fin n}
    {v : PaxosLogEntry} (h : .proposed i v ∈ trace.filterMap (eventView index)) :
    .proposed i index v ∈ trace := by
  obtain ⟨e, he, hindex, hbody⟩ := mem_of_mem_view h
  cases e <;> cases hbody
  cases hindex
  exact he

/-! ## A run

Node 1 proposes, nodes 1 and 2 promise and accept, and both learn. -/

def roundActions : List (Action 3) :=
  [.propose 1 2 .reconfigFinished, .deliver 1, .deliver 1, .deliver 1, .deliver 1,
    .deliver 2, .deliver 2, .deliver 3, .deliver 5, .deliver 3, .deliver 4]

theorem round_run :
    ∃ trace s, (machine 3).system.Run trace s ∧
      .acceptSent 1 0 2 .reconfigFinished ∈ trace ∧
      .learned 2 0 2 .reconfigFinished ∈ trace ∧
      (s.instanceAt 2 0).learnerState.learnedValue 2 = some (.reconfigFinished, 2) ∧
      (s.nodes 2).paxosLog.getEntry 0 = some .reconfigFinished :=
  (machine 3).exists_run roundActions
    (p := fun r => .acceptSent 1 0 2 .reconfigFinished ∈ r.1 ∧
      .learned 2 0 2 .reconfigFinished ∈ r.1 ∧
      (r.2.instanceAt 2 0).learnerState.learnedValue 2 = some (.reconfigFinished, 2) ∧
      (r.2.nodes 2).paxosLog.getEntry 0 = some .reconfigFinished)
    (by decide +kernel)

/-! ## One Accept message for a proposal number -/

def Event.isAcceptSent (index vrnd : ℕ) : Event n → Bool
  | .acceptSent _ k r _ => k = index ∧ r = vrnd
  | _ => false

theorem isOpened_of_isAcceptSent {index vrnd : ℕ} {e : Event n}
    (h : e.isAcceptSent index vrnd) :
    ∃ e', eventView index e = some e' ∧ e'.IsOpened vrnd := by
  cases e <;> simp only [Event.isAcceptSent, Bool.false_eq_true, decide_eq_true_eq] at h
  obtain ⟨rfl, rfl⟩ := h
  exact ⟨_, eventView_self _, rfl⟩

theorem countP_le_one_of_pairwise {α : Type*} {p : α → Bool} {l : List α}
    (h : l.Pairwise fun a b => ¬ (p a ∧ p b)) : l.countP p ≤ 1 := by
  induction l with
  | nil => simp
  | cons a l ih =>
      rw [List.pairwise_cons] at h
      by_cases ha : p a
      · have hzero : l.countP p = 0 := by
          rw [List.countP_eq_zero]
          intro b hb hpb
          exact h.1 b hb ⟨ha, hpb⟩
        rw [List.countP_cons_of_pos ha, hzero]
      · rw [List.countP_cons_of_neg ha]
        exact ih h.2

theorem eq_of_countP_le_one {α : Type*} {p : α → Bool} {l : List α} (h : l.countP p ≤ 1)
    {a b : α} (ha : a ∈ l) (hb : b ∈ l) (hpa : p a) (hpb : p b) : a = b := by
  rw [List.countP_eq_length_filter] at h
  have hma : a ∈ l.filter p := List.mem_filter.mpr ⟨ha, hpa⟩
  have hmb : b ∈ l.filter p := List.mem_filter.mpr ⟨hb, hpb⟩
  cases hl : l.filter p with
  | nil => simp [hl] at hma
  | cons c rest =>
      rw [hl] at h hma hmb
      have hrest : rest = [] := by
        apply List.eq_nil_of_length_eq_zero
        simp only [List.length_cons] at h
        omega
      subst rest
      rw [List.mem_singleton.mp hma, List.mem_singleton.mp hmb]

theorem acceptSent_count {trace : List (Event n)} {s : State n}
    (h : (machine n).system.Run trace s) (index vrnd : ℕ) :
    trace.countP (Event.isAcceptSent index vrnd) ≤ 1 := by
  obtain ⟨t, hrun, -⟩ := simulation (restricted_of_run h) index
  have honce := (Synod.openedInv_of_run (majority_majority n _) hrun).opened_once vrnd
  rw [List.pairwise_filterMap] at honce
  apply countP_le_one_of_pairwise
  apply honce.imp
  rintro a b hopened ⟨ha, hb⟩
  obtain ⟨a', hviewa, ha'⟩ := isOpened_of_isAcceptSent ha
  obtain ⟨b', hviewb, hb'⟩ := isOpened_of_isAcceptSent hb
  exact hopened a' hviewa b' hviewb ⟨ha', hb'⟩

/-- For every index and proposal number, at most one call of `promise` in the whole run
broadcasts an Accept message, so all of them carry one value and come from one
proposer. -/
theorem one_accept_per_number {trace : List (Event n)} {s : State n}
    (h : (machine n).system.Run trace s) (index vrnd : ℕ) :
    trace.countP (Event.isAcceptSent index vrnd) ≤ 1 ∧
      ∀ p p' v v', .acceptSent p index vrnd v ∈ trace →
        .acceptSent p' index vrnd v' ∈ trace → p = p' ∧ v = v' := by
  have hcount := acceptSent_count h index vrnd
  refine ⟨hcount, ?_⟩
  intro p p' v v' hp hp'
  have heq := eq_of_countP_le_one hcount hp hp' (by simp [Event.isAcceptSent])
    (by simp [Event.isAcceptSent])
  cases heq
  exact ⟨rfl, rfl⟩

theorem one_accept_per_number_round :
    ∃ trace s, (machine 3).system.Run trace s ∧
      .acceptSent 1 0 2 .reconfigFinished ∈ trace ∧
      trace.countP (Event.isAcceptSent 0 2) ≤ 1 := by
  obtain ⟨trace, s, hrun, hsent, -⟩ := round_run
  exact ⟨trace, s, hrun, hsent, (one_accept_per_number hrun 0 2).1⟩

/-! ## Learned values -/

theorem learned_alone {s s' : State n} {a : Action n} {events : List (Event n)}
    (hmove : Move s a events s') {d : Fin n} {index r : ℕ} {v : PaxosLogEntry}
    (hmem : .learned d index r v ∈ events) : events = [.learned d index r v] := by
  cases hmove with
  | propose hnext hlt hcall => cases List.mem_singleton.mp hmem
  | paxos hpacket hcall hset =>
      obtain ⟨effect, heffect, hshown⟩ := List.mem_filterMap.mp hmem
      cases effect with
      | broadcast endpoints message =>
          simp only [shown] at hshown
          split at hshown <;> cases hshown
      | send proposer message =>
          simp only [shown] at hshown
          split at hshown <;> cases hshown
      | setEntry k entry =>
          obtain ⟨-, rfl⟩ := setEntry_of_dispatch hcall heffect
          simp [hshown]
  | _ => cases hmem

theorem accepted_of_learned {trace : List (Event n)} {s : State n}
    (h : (machine n).system.Run trace s) {d : Fin n} {index r : ℕ} {v : PaxosLogEntry}
    (hmem : .learned d index r v ∈ trace) : AcceptedByMajority trace index r v := by
  obtain ⟨t, hview, -⟩ := simulation (restricted_of_run h) index
  have hlearned := (Synod.learnInv_of_run (majority_majority n _) hview).learned d r v
    (mem_view hmem)
  exact hlearned.mono fun _ => accepted_of_mem_view

/-- When a node learns a value, a majority has already accepted it. -/
theorem accepted_before_learned {trace : List (Event n)} {s : State n}
    (h : (machine n).system.Run trace s) {before after : List (Event n)} {d : Fin n}
    {index r : ℕ} {v : PaxosLogEntry}
    (htrace : trace = before ++ .learned d index r v :: after) :
    AcceptedByMajority before index r v := by
  obtain ⟨past, s₀, events, s₁, pre, post, hpast, ⟨a, -, hnext⟩, hevents, rfl⟩ :=
    h.split htrace
  have hrun : (machine n).system.Run (past ++ events) s₁ := hpast.step ⟨a, trivial, hnext⟩
  have hmem : .learned d index r v ∈ events := by simp [hevents]
  apply (accepted_of_learned hrun (List.mem_append_right past hmem)).mono
  intro i haccepted
  rw [learned_alone (move_of_next hnext) hmem] at haccepted
  simp only [List.mem_append, List.mem_singleton, reduceCtorEq, or_false] at haccepted
  exact List.mem_append_left _ haccepted

/-- The count of a learner is the number of distinct nodes whose votes it has heard. -/
theorem counted_accepted {trace : List (Event n)} {s : State n}
    (h : (machine n).system.Run trace s) {d : Fin n} {index r count : ℕ} {v : PaxosLogEntry}
    (hcount : (s.instanceAt d index).learnerState.learnedValue r = some (v, count)) :
    ∃ acceptors : List (Fin n), acceptors.Nodup ∧ acceptors.length = count ∧
      ∀ a ∈ acceptors, .accepted a index r v ∈ trace := by
  obtain ⟨t, hview, hrefines⟩ := simulation (restricted_of_run h) index
  have hinv := Synod.learnInv_of_run (majority_majority n _) hview
  have htally := (hrefines.represents d).tally r
  simp only [localState] at htally
  rw [hcount] at htally
  obtain ⟨⟨w, acceptors⟩, hvotes, heq⟩ := Option.map_eq_some_iff.mp htally.symm
  cases heq
  exact ⟨acceptors, hinv.nodup d r w acceptors hvotes, rfl, fun a ha =>
    accepted_of_mem_view (hinv.mem d r w acceptors hvotes a ha)⟩

/-- When a node learns a value, a majority of distinct nodes has already accepted it with
this proposal number; and no learner ever counts a node twice, or one that has accepted
another value. -/
theorem learned_accepted {trace : List (Event n)} {s : State n}
    (h : (machine n).system.Run trace s) :
    (∀ before after d index r v, trace = before ++ .learned d index r v :: after →
      AcceptedByMajority before index r v) ∧
    ∀ d index r v count,
      (s.instanceAt d index).learnerState.learnedValue r = some (v, count) →
      ∃ acceptors : List (Fin n), acceptors.Nodup ∧ acceptors.length = count ∧
        ∀ a ∈ acceptors, .accepted a index r v ∈ trace :=
  ⟨fun _ _ _ _ _ _ htrace => accepted_before_learned h htrace,
    fun _ _ _ _ _ hcount => counted_accepted h hcount⟩

theorem learned_accepted_round :
    ∃ trace s before after, (machine 3).system.Run trace s ∧
      trace = before ++ .learned 2 0 2 .reconfigFinished :: after ∧
      AcceptedByMajority before 0 2 .reconfigFinished ∧
      ∃ acceptors : List (Fin 3), acceptors.Nodup ∧ acceptors.length = 2 ∧
        ∀ a ∈ acceptors, .accepted a 0 2 .reconfigFinished ∈ trace := by
  obtain ⟨trace, s, hrun, -, hlearned, hcount, -⟩ := round_run
  obtain ⟨before, after, htrace⟩ := List.append_of_mem hlearned
  obtain ⟨haccepted, hcounted⟩ := learned_accepted hrun
  exact ⟨trace, s, before, after, hrun, htrace, haccepted _ _ _ _ _ _ htrace,
    hcounted _ _ _ _ _ hcount⟩

theorem LearnedAt.accepted {trace : List (Event n)} {s : State n}
    (h : (machine n).system.Run trace s) {index : ℕ} {e : PaxosLogEntry}
    (hlearned : LearnedAt trace index e) : ∃ r, AcceptedByMajority trace index r e := by
  obtain ⟨d, r, hmem⟩ := hlearned
  exact ⟨r, accepted_of_learned h hmem⟩

/-! ## The value of an Accept message -/

/-- The loop picks the last promise with a vote. -/
theorem proposalValue_eq (own : PaxosLogEntry) (promises : List (ℕ × PaxosLogEntry)) :
    proposalValue own promises =
      (((promises.filter fun p => 0 < p.1).getLast?).map Prod.snd).getD own := by
  induction promises using List.reverseRecOn with
  | nil => rfl
  | append_singleton promises p ih =>
      simp only [proposalValue, List.foldl_append, List.foldl_cons, List.foldl_nil] at ih ⊢
      by_cases hp : 0 < p.1
      · simp [hp]
      · simp only [hp, if_false]
        rw [ih]
        simp [hp]

theorem proposalValue_reported : Synod.SelectsReported proposalValue := by
  intro own promises
  rw [proposalValue_eq]
  cases hlast : (promises.filter fun p => 0 < p.1).getLast? with
  | none => exact .inl rfl
  | some last =>
      have hmem := List.mem_of_getLast? hlast
      rw [List.mem_filter, decide_eq_true_eq] at hmem
      exact .inr ⟨last, hmem.1, hmem.2, rfl⟩

/-! ## Validity -/

theorem proposed_alone {s s' : State n} {a : Action n} {events : List (Event n)}
    (hmove : Move s a events s') {p : Fin n} {index : ℕ} {e : PaxosLogEntry}
    (hmem : .proposed p index e ∈ events) :
    events = [.proposed p index e] ∧ (s.nodes p).paxosLog.nextAvailableIndex = .ok index := by
  cases hmove with
  | propose hnext hlt hcall =>
      cases List.mem_singleton.mp hmem
      exact ⟨rfl, hnext⟩
  | paxos hpacket hcall hset => exact absurd hmem (proposed_not_shown _ _ _ p index e)
  | _ => cases hmem

/-- A proposal is made at the next available index the proposer has at that moment. -/
theorem proposed_at_next {trace : List (Event n)} {s : State n}
    (h : (machine n).system.Run trace s) {p : Fin n} {index : ℕ} {e : PaxosLogEntry}
    (hmem : .proposed p index e ∈ trace) :
    ∃ before after s₀, trace = before ++ .proposed p index e :: after ∧
      (machine n).system.Run before s₀ ∧
      (s₀.nodes p).paxosLog.nextAvailableIndex = .ok index := by
  obtain ⟨before, after, htrace⟩ := List.append_of_mem hmem
  obtain ⟨past, s₀, events, s₁, pre, post, hpast, ⟨a, -, hnext⟩, hevents, hbefore⟩ :=
    h.split htrace
  have hin : .proposed p index e ∈ events := by simp [hevents]
  obtain ⟨halone, hindex⟩ := proposed_alone (move_of_next hnext) hin
  have hpre : pre = [] := by
    rw [halone] at hevents
    cases pre with
    | nil => rfl
    | cons e' pre => simp at hevents
  subst hpre
  refine ⟨before, after, s₀, htrace, ?_, hindex⟩
  simpa [hbefore] using hpast

/-- Every entry of a log was proposed for its index by a node whose next available index
it was, and a majority has accepted one value at every index before. -/
theorem log_entry_valid {trace : List (Event n)} {s : State n}
    (h : (machine n).system.Run trace s) {i : Fin n} {index : ℕ} {e : PaxosLogEntry}
    (hentry : (s.nodes i).paxosLog.getEntry index = some e) :
    (∃ p before after s₀, trace = before ++ .proposed p index e :: after ∧
      (machine n).system.Run before s₀ ∧
      (s₀.nodes p).paxosLog.nextAvailableIndex = .ok index) ∧
    ∀ k < index, ∃ r v, AcceptedByMajority trace k r v := by
  have hinv := logInv_of_run h
  obtain ⟨d, r, hlearned⟩ := hinv.learned i index e hentry
  obtain ⟨t, hview, -⟩ := simulation (restricted_of_run h) index
  obtain ⟨p, hp⟩ := Synod.proposed_of_learned (majority_majority n _) proposalValue_reported
    hview (mem_view hlearned)
  have hproposed := proposed_of_mem_view hp
  refine ⟨⟨p, proposed_at_next h hproposed⟩, ?_⟩
  intro k hk
  obtain ⟨v, hv⟩ := hinv.proposed p index e hproposed k hk
  obtain ⟨r', hr'⟩ := hv.accepted h
  exact ⟨r', v, hr'⟩

/-- A round that is delivered in full, and a second one of another node. -/
def twoRoundActions : List (Action 3) :=
  .propose 1 2 .reconfigFinished :: List.replicate 18 (.deliver 0) ++
    .propose 0 5 .notSet :: List.replicate 18 (.deliver 0)

theorem log_entry_valid_round :
    ∃ (trace : List (Event 3)) (s : State 3), (machine 3).system.Run trace s ∧
      (s.nodes 2).paxosLog.getEntry 1 = some .notSet ∧
      (∃ p before after s₀, trace = before ++ .proposed p 1 .notSet :: after ∧
        (machine 3).system.Run before s₀ ∧
        (s₀.nodes p).paxosLog.nextAvailableIndex = .ok 1) ∧
      ∃ r v, AcceptedByMajority trace 0 r v := by
  obtain ⟨trace, s, hrun, hentry⟩ := (machine 3).exists_run twoRoundActions
    (p := fun r => (r.2.nodes 2).paxosLog.getEntry 1 = some .notSet) (by decide +kernel)
  obtain ⟨hproposed, hbelow⟩ := log_entry_valid hrun hentry
  exact ⟨trace, s, hrun, hentry, hproposed, hbelow 0 (by decide)⟩

/-! ## Agreement -/

/-- The last of the promises with a vote carries the value of the greatest vote. -/
def LastIsGreatest (promises : List (ℕ × PaxosLogEntry)) : Prop :=
  ∀ last ∈ (promises.filter fun p => 0 < p.1).getLast?,
    ∃ p ∈ promises, p.2 = last.2 ∧ ∀ q ∈ promises, q.1 ≤ p.1

instance (promises : List (ℕ × PaxosLogEntry)) : Decidable (LastIsGreatest promises) := by
  unfold LastIsGreatest
  infer_instance

theorem selectsGreatest_of_lastIsGreatest (own : PaxosLogEntry)
    {promises : List (ℕ × PaxosLogEntry)} (h : LastIsGreatest promises) :
    Synod.SelectsGreatest (proposalValue own promises) promises := by
  rw [proposalValue_eq]
  cases hlast : (promises.filter fun p => 0 < p.1).getLast? with
  | none =>
      left
      intro p hp
      rw [List.getLast?_eq_none_iff, List.filter_eq_nil_iff] at hlast
      have hzero := hlast p hp
      simp only [decide_eq_true_eq] at hzero
      omega
  | some last =>
      obtain ⟨p, hp, hvalue, hgreatest⟩ := h last hlast
      have hmem := List.mem_of_getLast? hlast
      rw [List.mem_filter, decide_eq_true_eq] at hmem
      have hle := hgreatest last hmem.1
      exact .inr ⟨p, hp, by omega, hvalue, hgreatest⟩

/-- No two logs hold different entries at an index. -/
def LogsAgree (s : State n) : Prop :=
  ∀ i j index e e', (s.nodes i).paxosLog.getEntry index = some e →
    (s.nodes j).paxosLog.getEntry index = some e' → e = e'

/-- The logs agree in every run in which the loop over the promises picks the greatest
vote whenever a majority is complete. -/
theorem logs_agree {trace : List (Event n)} {s : State n}
    (h : (restricted n LastIsGreatest).Run trace s) : LogsAgree s := by
  intro i j index e e' he he'
  have hinv := logInv_of_run (run_of_restricted h)
  obtain ⟨d, r, hlearned⟩ := hinv.learned i index e he
  obtain ⟨d', r', hlearned'⟩ := hinv.learned j index e' he'
  obtain ⟨t, hview, -⟩ := simulation h index
  exact Synod.learned_unique (majority_majority n _)
    (fun own _ => selectsGreatest_of_lastIsGreatest own) hview (mem_view hlearned)
    (mem_view hlearned')

theorem logs_agree_round :
    ∃ trace s, (restricted 3 LastIsGreatest).Run trace s ∧ LogsAgree s ∧
      (s.nodes 1).paxosLog.getEntry 0 = some .reconfigFinished ∧
      (s.nodes 2).paxosLog.getEntry 0 = some .reconfigFinished := by
  obtain ⟨trace, s, hrun, hone, htwo⟩ :=
    ((machine 3).restrict fun s a => ∀ promises ∈ completed s a,
      LastIsGreatest promises).exists_run roundActions
      (p := fun r => (r.2.nodes 1).paxosLog.getEntry 0 = some .reconfigFinished ∧
        (r.2.nodes 2).paxosLog.getEntry 0 = some .reconfigFinished)
      (by decide +kernel)
  have hrestricted : (restricted 3 LastIsGreatest).Run trace s :=
    Machine.guarded_of_restrict hrun
  exact ⟨trace, s, hrestricted, logs_agree hrestricted, hone, htwo⟩

/-- Node 0 opens round 1 and is alone in accepting its value. Nodes 1 and 2 accept and
learn the value of round 2. In round 3 node 0 counts the promise of node 1, with the value
of round 2, and then its own, with the value of round 1, which it sends and learns. -/
def conflictActions : List (Action 3) :=
  [.propose 0 1 .reconfigFinished, .deliver 0, .deliver 0, .deliver 1, .deliver 1,
    .deliver 1,
    .propose 1 2 (.keySpaceChanged ⟨[], 1⟩), .deliver 7, .deliver 7, .deliver 7, .deliver 7,
    .deliver 8, .deliver 8, .deliver 9, .deliver 11,
    .propose 0 2 .reconfigFinished, .deliver 13, .deliver 14, .deliver 12, .deliver 13,
    .deliver 13, .deliver 13, .deliver 14, .deliver 16]

/-- In some runs two logs disagree. -/
theorem logs_disagree :
    ¬ ∀ (n : ℕ) (trace : List (Event n)) (s : State n),
      (machine n).system.Run trace s → LogsAgree s := by
  intro hagree
  obtain ⟨trace, s, hrun, hzero, hone⟩ := (machine 3).exists_run conflictActions
    (p := fun r => (r.2.nodes 0).paxosLog.getEntry 0 = some .reconfigFinished ∧
      (r.2.nodes 1).paxosLog.getEntry 0 = some (.keySpaceChanged ⟨[], 1⟩))
    (by decide +kernel)
  have heq := hagree 3 trace s hrun 0 1 0 _ _ hzero hone
  cases heq

end UniversalDB.Group
