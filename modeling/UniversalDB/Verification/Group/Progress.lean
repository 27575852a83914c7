import Mathlib.Data.Fintype.Lattice
import UniversalDB.Verification.Group.Steps

/-! # A majority of a group can always go on

Whatever has happened, the nodes of a majority can fill their logs up to any index without
the other nodes: one of them proposes until its number is above all promises, the majority
promises and accepts, the proposer learns, and the others catch up with it. -/

namespace UniversalDB.Group

open SinglePaxosHandler MultiPaxosHandler

variable {n : ℕ}

/-! ## The four parts of a round

`majority` are the nodes that take part, `p` proposes at index `k` with number `N`, and
`s₀` is the state in which the round begins. -/

/-- Nothing has changed but what belongs to one index. -/
structure Elsewhere (s₀ : State n) (k : ℕ) (s : State n) : Prop where
  instances : ∀ i j, j ≠ k → s.instanceAt i j = s₀.instanceAt i j
  logs : ∀ i j, j ≠ k → (s.nodes i).paxosLog.log j = (s₀.nodes i).paxosLog.log j

theorem Elsewhere.refl (s : State n) {k : ℕ} : Elsewhere s k s :=
  ⟨fun _ _ _ => rfl, fun _ _ _ => rfl⟩

/-- What holds until the proposer learns: it has no entry and has heard no vote. -/
structure Unlearned (s₀ : State n) (p : Fin n) (k N : ℕ) (s : State n) : Prop where
  reachable : Reachable s
  elsewhere : Elsewhere s₀ k s
  unset : (s.nodes p).paxosLog.log k = none
  votes : (s.instanceAt p k).learnerState.learnedValue N = none

/-- The nodes that are `done` have promised. -/
structure Asking (s₀ : State n) (majority : List (Fin n)) (p : Fin n) (k N : ℕ)
    (done : List (Fin n)) (s : State n) : Prop extends Unlearned s₀ p k N s where
  promises : (s.instanceAt p k).proposerState.prepareState N = some []
  asked : ∀ i ∈ majority, i ∉ done → (s.instanceAt i k).acceptorState.rnd < N ∧
    packetAt k p i (.prepare N) ∈ s.network
  promised : ∀ i ∈ done, (s.instanceAt i k).acceptorState.rnd ≤ N ∧
    ∃ vrnd vval, packetAt k i p (.promise N vrnd vval) ∈ s.network

/-- The promises of the nodes that are `done` have been counted. -/
structure Opening (s₀ : State n) (majority : List (Fin n)) (p : Fin n) (k N : ℕ)
    (done : List (Fin n)) (s : State n) : Prop extends Unlearned s₀ p k N s where
  rnd_le : ∀ i ∈ majority, (s.instanceAt i k).acceptorState.rnd ≤ N
  promised : ∀ i ∈ majority, i ∉ done →
    ∃ vrnd vval, packetAt k i p (.promise N vrnd vval) ∈ s.network
  promises : ∃ promises, (s.instanceAt p k).proposerState.prepareState N = some promises ∧
    promises.length = done.length
  «opened» : done.length = n / 2 + 1 →
    ∃ vval, ∀ i, packetAt k p i (.accept N vval) ∈ s.network

/-- The nodes that are `done` have accepted. -/
structure Accepting (s₀ : State n) (majority : List (Fin n)) (p : Fin n) (k N : ℕ)
    (vval : PaxosLogEntry) (done : List (Fin n)) (s : State n) : Prop
    extends Unlearned s₀ p k N s where
  asked : ∀ i ∈ majority, i ∉ done → (s.instanceAt i k).acceptorState.rnd ≤ N ∧
    packetAt k p i (.accept N vval) ∈ s.network
  accepted : ∀ i ∈ done, packetAt k i p (.learn N vval) ∈ s.network

/-- The votes of the nodes that are `done` have been heard. -/
structure Learning (s₀ : State n) (majority : List (Fin n)) (p : Fin n) (k N : ℕ)
    (vval : PaxosLogEntry) (done : List (Fin n)) (s : State n) : Prop where
  reachable : Reachable s
  elsewhere : Elsewhere s₀ k s
  accepted : ∀ i ∈ majority, i ∉ done → packetAt k i p (.learn N vval) ∈ s.network
  heard : done.length < n / 2 + 1 → (s.nodes p).paxosLog.log k = none ∧
    ((s.instanceAt p k).learnerState.learnedValue N).getD (vval, 0) = (vval, done.length)
  learned : done.length = n / 2 + 1 → ((s.nodes p).paxosLog.log k).isSome

section Calls

variable {s₀ s s' : State n} {p self : Fin n} {k N : ℕ} {handled : Packet n → Prop}
  {h' : SinglePaxosHandler (Fin n)} {effects : List (Effect (Fin n))}

theorem Called.instance_self (hcalled : Called s self k handled h' effects s') :
    s'.instanceAt self k = h' := by
  simp [hcalled.instances]

theorem Called.instance_of_ne (hcalled : Called s self k handled h' effects s') {i : Fin n}
    (hi : i ≠ self) (j : ℕ) : s'.instanceAt i j = s.instanceAt i j := by
  simp [hcalled.instances, hi]

theorem Elsewhere.called (h : Elsewhere s₀ k s)
    (hcalled : Called s self k handled h' effects s') : Elsewhere s₀ k s' := by
  constructor
  · intro i j hj
    rw [hcalled.instances, if_neg (fun hself => hj hself.2)]
    exact h.instances i j hj
  · intro i j hj
    have hnone : PaxosLog.firstEntry (effects.filterMap written) j = none := by
      rw [PaxosLog.firstEntry, Option.map_eq_none_iff, List.find?_eq_none]
      intro p hp
      rw [hcalled.elsewhere p hp]
      simpa using hj.symm
    rw [hcalled.log, hnone, Option.or_none, ite_eq_right_iff.mpr]
    · exact h.logs i j hj
    · rintro rfl
      rfl

/-- What a call does not change of any instance. -/
theorem Called.field {α : Type*} (hcalled : Called s self k handled h' effects s')
    {f : SinglePaxosHandler (Fin n) → α} (hf : f h' = f (s.instanceAt self k)) (i : Fin n) :
    f (s'.instanceAt i k) = f (s.instanceAt i k) := by
  by_cases hi : i = self
  · rw [hi, hcalled.instance_self, hf]
  · rw [hcalled.instance_of_ne hi]

theorem Unlearned.called (h : Unlearned s₀ p k N s)
    (hcalled : Called s self k handled h' effects s')
    (hwritten : effects.filterMap written = [])
    (hlearner : h'.learnerState = (s.instanceAt self k).learnerState) :
    Unlearned s₀ p k N s' := by
  refine ⟨hcalled.reachable, h.elsewhere.called hcalled, ?_, ?_⟩
  · rw [hcalled.log, hwritten]
    split
    · rename_i hp
      rw [← hp, h.unset]
      rfl
    · exact h.unset
  · rw [hcalled.field (f := SinglePaxosHandler.learnerState) hlearner]
    exact h.votes

theorem Reachable.message_eq (h : Reachable s) (i : Fin n) (k : ℕ)
    (content : PaxosMessage.Content) :
    (s.instanceAt i k).message content = ⟨UInt32.ofNat k, content⟩ := by
  rw [message, (h.configured i k).paxosLogIndex]

/-- A broadcast of an instance reaches every node. -/
theorem Called.broadcast (hcalled : Called s self k handled h' effects s') (h : Reachable s)
    {content : PaxosMessage.Content}
    (hmem : .broadcast (s.instanceAt self k).configEndpoints
      ((s.instanceAt self k).message content) ∈ effects) (i : Fin n) :
    packetAt k self i content ∈ s'.network := by
  apply hcalled.sent
  rw [List.mem_flatMap]
  refine ⟨_, hmem, ?_⟩
  rw [h.message_eq, (h.configured self k).configEndpoints]
  exact List.mem_map.mpr ⟨i, List.mem_finRange i, rfl⟩

theorem Called.send (hcalled : Called s self k handled h' effects s') (h : Reachable s)
    {dst : Fin n} {content : PaxosMessage.Content}
    (hmem : .send dst ((s.instanceAt self k).message content) ∈ effects) :
    packetAt k self dst content ∈ s'.network := by
  apply hcalled.sent
  rw [List.mem_flatMap]
  refine ⟨_, hmem, ?_⟩
  rw [h.message_eq]
  exact List.mem_singleton_self _

end Calls

section Round

variable {s₀ s : State n} {up : Finset (Fin n)} {majority done rest : List (Fin n)}
  {p i : Fin n} {k N : ℕ}

theorem notMem_of_nodup (hnodup : majority.Nodup) (hl : majority = done ++ i :: rest) :
    i ∉ done := by
  rw [hl] at hnodup
  intro hmem
  exact (List.nodup_append.mp hnodup).2.2 i hmem i List.mem_cons_self rfl

/-- A node of the majority promises. -/
theorem Asking.round (h : Asking s₀ majority p k N done s) (hk : k < 2 ^ 32) (hi : i ∈ up)
    (hmem : i ∈ majority) (hdone : i ∉ done) :
    ∃ s', (among up).Leads s s' ∧ Asking s₀ majority p k N (done ++ [i]) s' := by
  obtain ⟨hrnd, hpacket⟩ := h.asked i hmem hdone
  obtain ⟨s', hleads, hcalled⟩ := h.reachable.deliver hk hi hpacket
    (congrArg Except.ok (prepare_of_lt p hrnd))
  refine ⟨s', hleads, h.toUnlearned.called hcalled rfl rfl, ?_, ?_, ?_⟩
  · rw [hcalled.field (f := fun h => h.proposerState.prepareState N) rfl]
    exact h.promises
  · intro j hj hnot
    rw [List.mem_append, List.mem_singleton, not_or] at hnot
    obtain ⟨hrnd', hpacket'⟩ := h.asked j hj hnot.1
    rw [hcalled.instance_of_ne hnot.2]
    refine ⟨hrnd', hcalled.kept _ hpacket' ?_⟩
    rw [packetAt_inj]
    exact fun heq => hnot.2 heq.2.1
  · intro j hj
    by_cases hji : j = i
    · subst j
      rw [hcalled.instance_self]
      exact ⟨le_rfl, _, _, hcalled.send h.reachable (List.mem_singleton_self _)⟩
    · have hj' : j ∈ done := by simpa [hji] using hj
      obtain ⟨hrnd', vrnd, vval, hpacket'⟩ := h.promised j hj'
      rw [hcalled.instance_of_ne hji]
      refine ⟨hrnd', vrnd, vval, hcalled.kept _ hpacket' ?_⟩
      rw [packetAt_inj]
      exact fun heq => PaxosMessage.Content.noConfusion heq.2.2

/-- The proposer counts a promise, and opens the round with the last one. -/
theorem Opening.round (h : Opening s₀ majority p k N done s) (hk : k < 2 ^ 32) (hp : p ∈ up)
    (hmem : i ∈ majority) (hdone : i ∉ done) (hlt : done.length < n / 2 + 1) :
    ∃ s', (among up).Leads s s' ∧ Opening s₀ majority p k N (done ++ [i]) s' := by
  have hnat : (UInt32.ofNat k).toNat = k := UInt32.toNat_ofNat_of_lt' hk
  obtain ⟨vrnd, vval, hpacket⟩ := h.promised i hmem hdone
  obtain ⟨promises, hstate, hlen⟩ := h.promises
  have hthreshold := (h.reachable.configured p k).majorityThreshold
  have hknown := h.reachable.known hpacket rfl
  rw [hnat] at hknown
  obtain ⟨own, hown⟩ := Option.isSome_iff_exists.mp hknown.2
  obtain ⟨s', hleads, hcalled⟩ := h.reachable.deliver hk hp hpacket
    (promise_of_lt hstate hown (by omega) vrnd vval)
  have hunlearned : Unlearned s₀ p k N s' := by
    apply h.toUnlearned.called hcalled
    · split <;> rfl
    · rfl
  refine ⟨s', hleads, hunlearned, ?_, ?_, ?_, ?_⟩
  · intro j hj
    rw [hcalled.field (f := fun h => h.acceptorState.rnd) rfl]
    exact h.rnd_le j hj
  · intro j hj hnot
    rw [List.mem_append, List.mem_singleton, not_or] at hnot
    obtain ⟨vrnd', vval', hpacket'⟩ := h.promised j hj hnot.1
    refine ⟨vrnd', vval', hcalled.kept _ hpacket' ?_⟩
    rw [packetAt_inj]
    exact fun heq => hnot.2 heq.1
  · rw [hcalled.instance_self]
    refine ⟨promises ++ [(vrnd, vval)], ?_, ?_⟩
    · simp [withPromises]
    · simp [hlen]
  · intro hfull
    rw [List.length_append, List.length_singleton] at hfull
    have hlast : promises.length + 1 = (s.instanceAt p k).majorityThreshold := by omega
    rw [if_pos hlast] at hcalled
    exact ⟨_, hcalled.broadcast h.reachable (List.mem_singleton_self _)⟩

/-- A node of the majority accepts. -/
theorem Accepting.round {vval : PaxosLogEntry} (h : Accepting s₀ majority p k N vval done s)
    (hk : k < 2 ^ 32) (hi : i ∈ up) (hmem : i ∈ majority) (hdone : i ∉ done) :
    ∃ s', (among up).Leads s s' ∧ Accepting s₀ majority p k N vval (done ++ [i]) s' := by
  obtain ⟨hrnd, hpacket⟩ := h.asked i hmem hdone
  obtain ⟨s', hleads, hcalled⟩ := h.reachable.deliver hk hi hpacket
    (congrArg Except.ok (accept_of_le hrnd vval))
  refine ⟨s', hleads, h.toUnlearned.called hcalled rfl rfl, ?_, ?_⟩
  · intro j hj hnot
    rw [List.mem_append, List.mem_singleton, not_or] at hnot
    obtain ⟨hrnd', hpacket'⟩ := h.asked j hj hnot.1
    rw [hcalled.instance_of_ne hnot.2]
    refine ⟨hrnd', hcalled.kept _ hpacket' ?_⟩
    rw [packetAt_inj]
    exact fun heq => hnot.2 heq.2.1
  · intro j hj
    rcases List.mem_append.mp hj with hj | hj
    · refine hcalled.kept _ (h.accepted j hj) ?_
      rw [packetAt_inj]
      exact fun heq => PaxosMessage.Content.noConfusion heq.2.2
    · cases List.mem_singleton.mp hj
      exact hcalled.broadcast h.reachable (List.mem_singleton_self _) p

/-- The proposer hears a vote, and learns with the last one. -/
theorem Learning.round {vval : PaxosLogEntry} (h : Learning s₀ majority p k N vval done s)
    (hk : k < 2 ^ 32) (hp : p ∈ up) (hmem : i ∈ majority) (hdone : i ∉ done)
    (hlt : done.length < n / 2 + 1) :
    ∃ s', (among up).Leads s s' ∧ Learning s₀ majority p k N vval (done ++ [i]) s' := by
  obtain ⟨hunset, hvotes⟩ := h.heard hlt
  have hthreshold := (h.reachable.configured p k).majorityThreshold
  have hindex := (h.reachable.configured p k).paxosLogIndex
  have hlearned : (s.instanceAt p k).learnerState.learned = false := by
    by_contra hne
    have hsome := h.reachable.learned_written p k (by simpa using hne)
    rw [hunset] at hsome
    cases hsome
  obtain ⟨s', hleads, hcalled⟩ := h.reachable.deliver hk hp (h.accepted i hmem hdone)
    (congrArg Except.ok (learn_of_lt hlearned hvotes (by omega)))
  refine ⟨s', hleads, hcalled.reachable, h.elsewhere.called hcalled, ?_, ?_, ?_⟩
  · intro j hj hnot
    rw [List.mem_append, List.mem_singleton, not_or] at hnot
    refine hcalled.kept _ (h.accepted j hj hnot.1) ?_
    rw [packetAt_inj]
    exact fun heq => hnot.2 heq.1
  · intro hpart
    rw [List.length_append, List.length_singleton] at hpart
    have hfew : done.length + 1 ≠ (s.instanceAt p k).majorityThreshold := by omega
    rw [hcalled.log, if_pos rfl, if_neg hfew, hunset, hcalled.instance_self]
    refine ⟨rfl, ?_⟩
    simp [withVotes]
  · intro hfull
    rw [List.length_append, List.length_singleton] at hfull
    have hlast : done.length + 1 = (s.instanceAt p k).majorityThreshold := by omega
    rw [hcalled.log, if_pos rfl, if_pos hlast, hunset, hindex]
    simp [written, PaxosLog.firstEntry_cons]

/-! ## The round -/

theorem Asking.opening (h : Asking s₀ majority p k N majority s) :
    Opening s₀ majority p k N [] s := by
  refine ⟨h.toUnlearned, ?_, ?_, ⟨[], h.promises, rfl⟩, ?_⟩
  · intro i hi
    exact (h.promised i hi).1
  · intro i hi _
    exact (h.promised i hi).2
  · intro hfull
    simp at hfull

theorem Opening.accepting (h : Opening s₀ majority p k N majority s)
    (hlen : majority.length = n / 2 + 1) : ∃ vval, Accepting s₀ majority p k N vval [] s := by
  obtain ⟨vval, hopened⟩ := h.opened hlen
  refine ⟨vval, h.toUnlearned, ?_, by simp⟩
  intro i hi _
  exact ⟨h.rnd_le i hi, hopened i⟩

theorem Accepting.learning {vval : PaxosLogEntry}
    (h : Accepting s₀ majority p k N vval majority s) :
    Learning s₀ majority p k N vval [] s := by
  refine ⟨h.reachable, h.elsewhere, ?_, ?_, ?_⟩
  · intro i hi _
    exact h.accepted i hi
  · intro _
    rw [h.votes]
    exact ⟨h.unset, rfl⟩
  · intro hfull
    simp at hfull

/-- A proposer whose number is above the promises of a majority learns. -/
theorem Asking.learns (h : Asking s₀ majority p k N [] s) (hk : k < 2 ^ 32) (hp : p ∈ up)
    (hup : ∀ i ∈ majority, i ∈ up) (hnodup : majority.Nodup)
    (hlen : majority.length = n / 2 + 1) :
    ∃ s', (among up).Leads s s' ∧ Elsewhere s₀ k s' ∧
      ((s'.nodes p).paxosLog.log k).isSome := by
  have hshort : ∀ {done rest : List (Fin n)} {i : Fin n}, majority = done ++ i :: rest →
      i ∈ majority ∧ i ∉ done ∧ done.length < n / 2 + 1 := by
    intro done rest i hl
    refine ⟨by simp [hl], notMem_of_nodup hnodup hl, ?_⟩
    rw [hl, List.length_append, List.length_cons] at hlen
    omega
  obtain ⟨s₁, hleads₁, h₁⟩ := TransitionSystem.Leads.forEach (l := majority)
    (I := Asking s₀ majority p k N) (fun done i rest s hl h =>
      h.round hk (hup i (hshort hl).1) (hshort hl).1 (hshort hl).2.1) h
  obtain ⟨s₂, hleads₂, h₂⟩ := TransitionSystem.Leads.forEach (S := among up) (l := majority)
    (I := Opening s₀ majority p k N) (fun done i rest s hl h =>
      h.round hk hp (hshort hl).1 (hshort hl).2.1 (hshort hl).2.2) h₁.opening
  obtain ⟨vval, haccepting⟩ := h₂.accepting hlen
  obtain ⟨s₃, hleads₃, h₃⟩ := TransitionSystem.Leads.forEach (S := among up) (l := majority)
    (I := Accepting s₀ majority p k N vval) (fun done i rest s hl h =>
      h.round hk (hup i (hshort hl).1) (hshort hl).1 (hshort hl).2.1) haccepting
  obtain ⟨s₄, hleads₄, h₄⟩ := TransitionSystem.Leads.forEach (S := among up) (l := majority)
    (I := Learning s₀ majority p k N vval) (fun done i rest s hl h =>
      h.round hk hp (hshort hl).1 (hshort hl).2.1 (hshort hl).2.2) h₃.learning
  exact ⟨s₄, hleads₁.trans (hleads₂.trans (hleads₃.trans hleads₄)), h₄.elsewhere,
    h₄.learned hlen⟩

end Round

/-! ## A number above all promises -/

section Numbers

variable {s₀ s : State n} {up : Finset (Fin n)} {majority : List (Fin n)} {p : Fin n}
  {k M : ℕ}

/-- The state after a proposal, for a number above all promises. -/
theorem Called.asking (h : Reachable s) (hunset : (s.nodes p).paxosLog.log k = none)
    (hrnd : ∀ i, (s.instanceAt i k).acceptorState.rnd ≤ M)
    (helsewhere : Elsewhere s₀ k s) {draw : ℕ}
    {entry : PaxosLogEntry} {s' : State n}
    (hcalled : Called s p k (fun _ => False) ((s.instanceAt p k).propose draw entry).1
      ((s.instanceAt p k).propose draw entry).2 s')
    (hnumber : M < (s.instanceAt p k).nextProposalNumber draw) :
    Asking s₀ majority p k ((s.instanceAt p k).nextProposalNumber draw) [] s' := by
  have hrnd' : ∀ i, (s'.instanceAt i k).acceptorState.rnd <
      (s.instanceAt p k).nextProposalNumber draw := by
    intro i
    rw [hcalled.field (f := fun h => h.acceptorState.rnd) rfl]
    exact (hrnd i).trans_lt hnumber
  have hfresh := hcalled.reachable.fresh hrnd' p
  have hunset' : (s'.nodes p).paxosLog.log k = none := by
    rw [hcalled.log, if_pos rfl, hunset]
    rfl
  refine ⟨⟨hcalled.reachable, helsewhere.called hcalled, hunset', hfresh.votes⟩, ?_, ?_,
    by simp⟩
  · have hknown := known_of_propose (s.instanceAt p k) draw entry
    rw [← hcalled.instance_self] at hknown
    obtain ⟨promises, hstate⟩ := Option.isSome_iff_exists.mp hknown.1
    rw [hstate, hfresh.promises promises hstate]
  · intro i _ _
    exact ⟨hrnd' i, hcalled.broadcast h (List.mem_singleton_self _) i⟩

/-- Each proposal takes the number of the proposer up to 999 further, so some proposal has a
number above all promises. -/
theorem exists_asking (hp : p ∈ up) (hk : k < 2 ^ 32) (hM : M + 999 < 2 ^ 32)
    (h : Reachable s) (hgap : (s.nodes p).paxosLog.log.FirstGap k)
    (hrnd : ∀ i, (s.instanceAt i k).acceptorState.rnd ≤ M)
    (helsewhere : Elsewhere s₀ k s) :
    ∃ N s', (among up).Leads s s' ∧ Asking s₀ majority p k N [] s' := by
  induction hd : M + 1 - (s.instanceAt p k).nextProposalNumber 0 using Nat.strong_induction_on
    generalizing s with
  | _ d ih =>
      by_cases hnumber : M < (s.instanceAt p k).nextProposalNumber 0
      · obtain ⟨s', hleads, hcalled⟩ := h.propose hk hp hgap (Nat.zero_le 999) .notSet
        exact ⟨_, s', hleads, hcalled.asking h hgap.unset hrnd helsewhere hnumber⟩
      · obtain ⟨s', hleads, hcalled⟩ := h.propose hk hp hgap le_rfl .notSet
        have hnumber' : (s'.instanceAt p k).nextProposalNumber 0 =
            (s.instanceAt p k).nextProposalNumber 0 + 999 := by
          rw [hcalled.instance_self]
          simp only [nextProposalNumber, SinglePaxosHandler.propose] at hnumber ⊢
          omega
        have hlog : (s'.nodes p).paxosLog.log = (s.nodes p).paxosLog.log := by
          funext j
          rw [hcalled.log, if_pos rfl]
          exact Option.or_none
        obtain ⟨N, s'', hleads', hasking⟩ := ih _ (by omega) hcalled.reachable
          (by rw [hlog]; exact hgap) (by
            intro i
            rw [hcalled.field (f := fun h => h.acceptorState.rnd) rfl]
            exact hrnd i) (helsewhere.called hcalled) rfl
        exact ⟨N, s'', hleads.trans hleads', hasking⟩

end Numbers

/-! ## All logs of a majority -/

/-- The logs of the nodes in `up` hold all entries below an index. -/
def FilledBelow (up : Finset (Fin n)) (s : State n) (index : ℕ) : Prop :=
  ∀ i ∈ up, ∀ j < index, ((s.nodes i).paxosLog.log j).isSome

/-- The nodes in `up` can build requests for what they miss. -/
def CanAsk (up : Finset (Fin n)) (s : State n) : Prop :=
  ∀ i ∈ up, (s.nodes i).paxosLog.getAvailableIndices.length < 2 ^ 31

section Fill

variable {s : State n} {up : Finset (Fin n)} {k : ℕ}

theorem Reachable.isSome_of_leads {s' : State n} (h : Reachable s)
    (hleads : (among up).Leads s s') {i : Fin n} {j : ℕ}
    (hsome : ((s.nodes i).paxosLog.log j).isSome) : ((s'.nodes i).paxosLog.log j).isSome := by
  obtain ⟨entry, hentry⟩ := Option.isSome_iff_exists.mp hsome
  rw [h.subMap_of_leads hleads i j entry hentry]
  rfl

/-- All numbers promised at an index leave room for one more step of a proposer. -/
def Room (s : State n) (k : ℕ) : Prop :=
  ∀ i, (s.instanceAt i k).acceptorState.rnd + 999 < 2 ^ 32

theorem Reachable.learns (h : Reachable s) (hk : k < 2 ^ 32) (hmajority : n / 2 < up.card)
    {p : Fin n} (hp : p ∈ up) (hgap : (s.nodes p).paxosLog.log.FirstGap k)
    (hroom : Room s k) :
    ∃ s', (among up).Leads s s' ∧ Elsewhere s k s' ∧
      ((s'.nodes p).paxosLog.log k).isSome := by
  let M := Finset.univ.sup fun i => (s.instanceAt i k).acceptorState.rnd
  have hrnd : ∀ i, (s.instanceAt i k).acceptorState.rnd ≤ M := fun i =>
    Finset.le_sup (f := fun i => (s.instanceAt i k).acceptorState.rnd) (Finset.mem_univ i)
  have hM : M + 999 < 2 ^ 32 := by
    have hlt : M < 2 ^ 32 - 999 := by
      rw [Finset.sup_lt_iff (by decide)]
      intro i _
      have := hroom i
      omega
    omega
  obtain ⟨majority, hsub, hcard⟩ := Finset.exists_subset_card_eq hmajority
  have hstart : ∃ N s', (among up).Leads s s' ∧ Asking s majority.toList p k N [] s' :=
    exists_asking hp hk hM h hgap hrnd (.refl s)
  obtain ⟨N, s₁, hleads, hasking⟩ := hstart
  obtain ⟨s₂, hleads', helsewhere, hsome⟩ := hasking.learns hk hp
    (fun i hi => hsub (Finset.mem_toList.mp hi)) (Finset.nodup_toList _)
    (by rw [Finset.length_toList]; exact hcard)
  exact ⟨s₂, hleads.trans hleads', helsewhere, hsome⟩

theorem Reachable.gap_ge (h : Reachable s) {i : Fin n} {m : ℕ}
    (hall : ∀ j < m, ((s.nodes i).paxosLog.log j).isSome) :
    ∃ m', m ≤ m' ∧ (s.nodes i).paxosLog.log.FirstGap m' := by
  obtain ⟨m', -, hgap⟩ := (h.wellFormed i).nextAvailableIndex
  refine ⟨m', ?_, hgap⟩
  by_contra hlt
  have hsome := hall m' (by omega)
  rw [hgap.unset] at hsome
  cases hsome

/-- All nodes catch up with one of them. -/
theorem Reachable.level (h : Reachable s) {p : Fin n} (hp : p ∈ up) {m : ℕ}
    (hall : ∀ j < m, ((s.nodes p).paxosLog.log j).isSome) (hask : CanAsk up s) :
    ∃ s', (among up).Leads s s' ∧ (∀ i j, s'.instanceAt i j = s.instanceAt i j) ∧
      FilledBelow up s' m ∧ CanAsk up s' := by
  have hround : ∀ done i rest s₁, up.toList = done ++ i :: rest →
      (Reachable s₁ ∧ (∀ i j, s₁.instanceAt i j = s.instanceAt i j) ∧ CanAsk up s₁ ∧
        ∀ i, i = p ∨ i ∈ done → ∀ j < m, ((s₁.nodes i).paxosLog.log j).isSome) →
      ∃ s₂, (among up).Leads s₁ s₂ ∧
        Reachable s₂ ∧ (∀ i j, s₂.instanceAt i j = s.instanceAt i j) ∧ CanAsk up s₂ ∧
        ∀ j, j = p ∨ j ∈ done ++ [i] → ∀ k < m, ((s₂.nodes j).paxosLog.log k).isSome := by
    rintro done i rest s₁ hl ⟨h₁, hsame, hask₁, hdone⟩
    have hi : i ∈ up := by
      rw [← Finset.mem_toList, hl]
      simp
    obtain ⟨m', hm, hgap⟩ := h₁.gap_ge (hdone p (.inl rfl))
    obtain ⟨s₂, hleads, hsame', hfewer, hcaught⟩ := h₁.catch_up hi hp hgap (hask₁ i hi)
    refine ⟨s₂, hleads, h₁.of_leads hleads, ?_, ?_, ?_⟩
    · intro i j
      rw [hsame', hsame]
    · intro j hj
      exact (hfewer j).trans_lt (hask₁ j hj)
    · intro j hj k hk
      by_cases hji : j = i
      · rw [hji]
        exact hcaught k (by omega)
      · have hj' : j = p ∨ j ∈ done := by simpa [hji] using hj
        exact h₁.isSome_of_leads hleads (hdone j hj' k hk)
  obtain ⟨s', hleads, -, hsame, hask', hdone⟩ := TransitionSystem.Leads.forEach hround
    ⟨h, fun _ _ => rfl, hask, by simpa using hall⟩
  exact ⟨s', hleads, hsame, fun i hi => hdone i (.inr (Finset.mem_toList.mpr hi)), hask'⟩

/-- An entry behind filled indices makes no further indices available. -/
theorem Reachable.canAsk_of_elsewhere {s' : State n} (h : Reachable s)
    (hleads : (among up).Leads s s') (hfilled : FilledBelow up s k) (hask : CanAsk up s)
    (helsewhere : Elsewhere s k s') : CanAsk up s' := by
  intro i hi
  have hsub := h.subMap_of_leads hleads i
  have hbelow : ∀ j < k, ((s'.nodes i).paxosLog.log j).isSome := fun j hj =>
    h.isSome_of_leads hleads (hfilled i hi j hj)
  have hfewer : (s'.nodes i).paxosLog.getAvailableIndices.length ≤
      (s.nodes i).paxosLog.getAvailableIndices.length := by
    cases hentry : (s'.nodes i).paxosLog.log k with
    | some entry =>
        have hfilled' : ∀ j < k + 1, ((s'.nodes i).paxosLog.log j).isSome := by
          intro j hj
          rcases Nat.lt_succ_iff_lt_or_eq.mp hj with hlt | rfl
          · exact hbelow j hlt
          · rw [hentry]
            rfl
        refine LogSyncer.length_le_of_filled (h.wellFormed i)
          ((h.of_leads hleads).wellFormed i) hfilled' ?_
        intro j hj
        exact helsewhere.logs i j (by omega)
    | none =>
        refine LogSyncer.length_le_of_filled (h.wellFormed i)
          ((h.of_leads hleads).wellFormed i) hbelow ?_
        intro j hj
        by_cases hjk : j = k
        · subst j
          cases hold : (s.nodes i).paxosLog.log k with
          | none => exact hentry
          | some entry => exact hsub k entry hold
        · exact helsewhere.logs i j hjk
  exact hfewer.trans_lt (hask i hi)

/-- The nodes of a majority that hold all entries below an index can get the one at the
index. -/
theorem Reachable.fill (h : Reachable s) (hk : k < 2 ^ 32) (hmajority : n / 2 < up.card)
    (hfilled : FilledBelow up s k) (hask : CanAsk up s) (hroom : Room s k) :
    ∃ s', (among up).Leads s s' ∧ (∀ i j, j ≠ k → s'.instanceAt i j = s.instanceAt i j) ∧
      FilledBelow up s' (k + 1) ∧ CanAsk up s' := by
  obtain ⟨p, hp⟩ := Finset.card_pos.mp (Nat.zero_lt_of_lt hmajority)
  have hlearns : ∃ s₁, (among up).Leads s s₁ ∧ Elsewhere s k s₁ ∧
      ((s₁.nodes p).paxosLog.log k).isSome := by
    cases hentry : (s.nodes p).paxosLog.log k with
    | some entry => exact ⟨s, .refl s, .refl s, by rw [hentry]; rfl⟩
    | none => exact h.learns hk hmajority hp ⟨hentry, hfilled p hp⟩ hroom
  obtain ⟨s₁, hleads₁, helsewhere, hsome⟩ := hlearns
  have hall : ∀ j < k + 1, ((s₁.nodes p).paxosLog.log j).isSome := by
    intro j hj
    rcases Nat.lt_succ_iff_lt_or_eq.mp hj with hlt | rfl
    · exact h.isSome_of_leads hleads₁ (hfilled p hp j hlt)
    · exact hsome
  have hask₁ := h.canAsk_of_elsewhere hleads₁ hfilled hask helsewhere
  obtain ⟨s₂, hleads₂, hsame, hfilled', hask₂⟩ := (h.of_leads hleads₁).level hp hall hask₁
  refine ⟨s₂, hleads₁.trans hleads₂, ?_, hfilled', hask₂⟩
  intro i j hj
  rw [hsame, helsewhere.instances i j hj]

end Fill

/-- A majority of the nodes reaches any index, whatever has happened before and without a
step of the other nodes, as long as the numbers that have been promised leave room and each
of the nodes can ask for what it misses. No handler call has stopped a node. -/
theorem majority_progress {trace : List (Event n)} {s : State n}
    (h : (machine n).system.Run trace s) :
    (∀ i, (s.nodes i).exception = none) ∧
    ∀ (up : Finset (Fin n)) (index : ℕ), n / 2 < up.card → index ≤ 2 ^ 32 →
      (∀ i ∈ up, (s.nodes i).paxosLog.getAvailableIndices.length < 2 ^ 31) →
      (∀ k < index, ∀ i, (s.instanceAt i k).acceptorState.rnd + 999 < 2 ^ 32) →
      ∃ s', (among up).Leads s s' ∧ ∀ i ∈ up, ∃ m,
        (s'.nodes i).paxosLog.nextAvailableIndex = .ok m ∧ index ≤ m := by
  have hs : Reachable s := ⟨trace, h⟩
  refine ⟨hs.live, ?_⟩
  intro up index hmajority hwidth hask hroom
  have hfill : ∀ k ≤ index, ∃ s', (among up).Leads s s' ∧
      (∀ i j, k ≤ j → s'.instanceAt i j = s.instanceAt i j) ∧ FilledBelow up s' k ∧
      CanAsk up s' := by
    intro k
    induction k with
    | zero =>
        intro _
        refine ⟨s, .refl s, fun _ _ _ => rfl, ?_, hask⟩
        intro i _ j hj
        cases hj
    | succ k ih =>
        intro hk
        obtain ⟨s₁, hleads₁, hsame₁, hfilled₁, hask₁⟩ := ih (by omega)
        have hroom₁ : Room s₁ k := by
          intro i
          rw [hsame₁ i k le_rfl]
          exact hroom k (by omega) i
        obtain ⟨s₂, hleads₂, hsame₂, hfilled₂, hask₂⟩ :=
          (hs.of_leads hleads₁).fill (by omega) hmajority hfilled₁ hask₁ hroom₁
        refine ⟨s₂, hleads₁.trans hleads₂, ?_, hfilled₂, hask₂⟩
        intro i j hj
        rw [hsame₂ i j (by omega), hsame₁ i j (by omega)]
  obtain ⟨s', hleads, -, hfilled, -⟩ := hfill index le_rfl
  refine ⟨s', hleads, ?_⟩
  intro i hi
  obtain ⟨m, hm, hgap⟩ := (hs.of_leads hleads).gap_ge (hfilled i hi)
  exact ⟨m, ((hs.of_leads hleads).wellFormed i).nextAvailableIndex_eq.mpr hgap, hm⟩

/-- Node 2 has asked with a higher number than node 0 and takes no further step. -/
theorem majority_progress_sample : ∃ s : State 3,
    (s.instanceAt 1 0).acceptorState.rnd = 900 ∧ (∀ i, (s.nodes i).exception = none) ∧
    ∃ s', (among {0, 1}).Leads s s' ∧ ∀ i ∈ ({0, 1} : Finset (Fin 3)), ∃ m,
      (s'.nodes i).paxosLog.nextAvailableIndex = .ok m ∧ 2 ≤ m := by
  obtain ⟨trace, s, hrun, hasked, hask, hroom⟩ := (machine 3).exists_run
    [.propose 0 700 .reconfigFinished, .propose 2 900 .reconfigFinished, .deliver 0, .deliver 3]
    (p := fun r => (r.2.instanceAt 1 0).acceptorState.rnd = 900 ∧
      (∀ i ∈ ({0, 1} : Finset (Fin 3)),
        (r.2.nodes i).paxosLog.getAvailableIndices.length < 2 ^ 31) ∧
      ∀ k < 2, ∀ i, (r.2.instanceAt i k).acceptorState.rnd + 999 < 2 ^ 32) (by decide +kernel)
  obtain ⟨hlive, hprogress⟩ := majority_progress hrun
  exact ⟨s, hasked, hlive, hprogress {0, 1} 2 (by decide) (by decide) hask hroom⟩

end UniversalDB.Group
