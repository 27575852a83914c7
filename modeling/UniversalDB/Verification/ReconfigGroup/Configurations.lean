import UniversalDB.Library.Voting
import UniversalDB.Verification.ReconfigGroup.Invariant

/-! # The configurations of the instances of a group -/

namespace UniversalDB.ReconfigGroup

open PaxosLog PaxosConfigManager

variable {constants : Constants} {slaves : List EndpointId} {trace created : List Created}
  {nodeId : EndpointId} {node : Node} {s s' : State}

/-! ## The configuration of an instance -/

/-- Every instance runs under the configuration that the agreed log below its index
dictates, and its quorums intersect. -/
structure Dictated (slaves : List EndpointId) (agreed : KeyMap ℕ PaxosLogEntry) (s : State) :
    Prop where
  configEndpoints : ∀ nodeId i h,
    (s.nodes nodeId).multiPaxosHandler.paxosInstances i = some h →
      h.configEndpoints = governing slaves agreed i
  majority : ∀ nodeId i h,
    (s.nodes nodeId).multiPaxosHandler.paxosInstances i = some h →
      (governing slaves agreed i).length < 2 * h.majorityThreshold
  intersect : ∀ nodeId nodeId' i h h',
    (s.nodes nodeId).multiPaxosHandler.paxosInstances i = some h →
    (s.nodes nodeId').multiPaxosHandler.paxosInstances i = some h' →
      ∀ quorum quorum' : List EndpointId, quorum.Nodup → quorum'.Nodup →
        quorum ⊆ h.configEndpoints → quorum' ⊆ h'.configEndpoints →
        h.majorityThreshold ≤ quorum.length → h'.majorityThreshold ≤ quorum'.length →
          ∃ e, e ∈ quorum ∧ e ∈ quorum'

/-- The entries that the node has not learned do not change the configuration for the
index, and the threshold is a majority of it. -/
def InForce (constants : Constants) (slaves : List EndpointId)
    (agreed : KeyMap ℕ PaxosLogEntry) (c : Created) : Prop :=
  governing slaves agreed (min c.index c.learned) = governing slaves agreed c.index ∧
    (governing slaves agreed c.index).length < 2 * (constants.numSlaveServers / 2 + 1)

instance (constants : Constants) (slaves : List EndpointId) (agreed : KeyMap ℕ PaxosLogEntry)
    (c : Created) : Decidable (InForce constants slaves agreed c) :=
  inferInstanceAs (Decidable (_ ∧ _))

theorem majorityThreshold_of_handler (h : NodeInv constants slaves trace nodeId node) {i : ℕ}
    {handler : SinglePaxosHandler EndpointId}
    (hsome : node.multiPaxosHandler.paxosInstances i = some handler) :
    handler.majorityThreshold = constants.numSlaveServers / 2 + 1 := by
  obtain ⟨hconstants, -⟩ := h.handlers i handler hsome
  rw [SinglePaxosHandler.majorityThreshold, hconstants]

theorem dictated_of_inForce {agreed : KeyMap ℕ PaxosLogEntry}
    (h : Inv constants slaves trace s)
    (hagreed : ∀ nodeId, (s.nodes nodeId).configuredLog.paxosLog.log.SubMap agreed)
    (hforce : ∀ c ∈ trace, InForce constants slaves agreed c) : Dictated slaves agreed s := by
  have hendpoints : ∀ nodeId i handler,
      (s.nodes nodeId).multiPaxosHandler.paxosInstances i = some handler →
        handler.configEndpoints = governing slaves agreed i ∧
          (governing slaves agreed i).length < 2 * handler.majorityThreshold := by
    intro nodeId i handler hsome
    obtain ⟨-, -, m, hmem, hread⟩ := (h nodeId).handlers i handler hsome
    obtain ⟨hsame, hlength⟩ := hforce _ hmem
    rw [majorityThreshold_of_handler (h nodeId) hsome]
    exact ⟨(hread.of_subMap (hagreed nodeId)).configEndpoints.trans hsame, hlength⟩
  constructor
  · exact fun nodeId i handler hsome => (hendpoints nodeId i handler hsome).1
  · exact fun nodeId i handler hsome => (hendpoints nodeId i handler hsome).2
  · intro nodeId nodeId' i handler handler' hsome hsome' quorum quorum' hnodup hnodup' hsub
      hsub' hlength hlength'
    obtain ⟨hconfig, hmajority⟩ := hendpoints nodeId i handler hsome
    obtain ⟨hconfig', -⟩ := hendpoints nodeId' i handler' hsome'
    rw [majorityThreshold_of_handler (h nodeId') hsome',
      ← majorityThreshold_of_handler (h nodeId) hsome] at hlength'
    rw [hconfig] at hsub
    rw [hconfig'] at hsub'
    exact Voting.exists_mem_of_sublists hmajority hnodup hnodup' hsub hsub' hlength hlength'

theorem inForce_of_dictated {agreed : KeyMap ℕ PaxosLogEntry}
    (h : Inv constants slaves trace s)
    (hagreed : ∀ nodeId, (s.nodes nodeId).configuredLog.paxosLog.log.SubMap agreed)
    (hdictated : Dictated slaves agreed s) : ∀ c ∈ trace, InForce constants slaves agreed c := by
  rintro ⟨nodeId, i, m⟩ hmem
  obtain ⟨handler, hsome, hread⟩ := (h nodeId).created i m hmem
  have hmajority := hdictated.majority nodeId i handler hsome
  rw [majorityThreshold_of_handler (h nodeId) hsome] at hmajority
  refine ⟨?_, hmajority⟩
  rw [← (hread.of_subMap (hagreed nodeId)).configEndpoints]
  exact hdictated.configEndpoints nodeId i handler hsome

/-- The instances of a run are under the configurations that the agreed log dictates
exactly when each is created after every reconfiguration in front of it is learned. -/
theorem dictated_iff {agreed : KeyMap ℕ PaxosLogEntry}
    (h : (machine constants slaves).system.Run trace s)
    (hagreed : ∀ nodeId, (s.nodes nodeId).configuredLog.paxosLog.log.SubMap agreed) :
    Dictated slaves agreed s ↔ ∀ c ∈ trace, InForce constants slaves agreed c := by
  have hinv := inv_of_run h
  constructor
  · exact inForce_of_dictated hinv hagreed
  · exact dictated_of_inForce hinv hagreed

/-! ## Runs of a few nodes -/

/-- The action is one of a given node, or drops a message. -/
def ActsIn (nodes : List EndpointId) (s : State) : Action → Prop
  | .propose nodeId _ _ => nodeId ∈ nodes
  | .sync nodeId => nodeId ∈ nodes
  | .deliver position => ∀ packet ∈ s.network[position]?, packet.dst ∈ nodes
  | .drop _ => True

instance (nodes : List EndpointId) (s : State) : (a : Action) → Decidable (ActsIn nodes s a)
  | .propose nodeId _ _ => inferInstanceAs (Decidable (nodeId ∈ nodes))
  | .sync nodeId => inferInstanceAs (Decidable (nodeId ∈ nodes))
  | .deliver position =>
      inferInstanceAs (Decidable (∀ packet ∈ s.network[position]?, packet.dst ∈ nodes))
  | .drop _ => inferInstanceAs (Decidable True)

theorem finish_nodes (s : State) (network : List Packet) (outcome : Outcome)
    {nodeId nodeId' : EndpointId} (hne : nodeId' ≠ nodeId) :
    (s.finish nodeId network outcome).2.nodes nodeId' = s.nodes nodeId' := by
  match outcome with
  | .ok _ => exact Function.update_of_ne hne _ _
  | .error _ => exact Function.update_of_ne hne _ _

theorem nodes_of_next {nodes : List EndpointId} {a : Action} (hacts : ActsIn nodes s a)
    (hnext : next constants s a = some (created, s')) (hnode : nodeId ∉ nodes) :
    s'.nodes nodeId = s.nodes nodeId := by
  rcases next_cases hnext with ⟨-, hnodes⟩ | ⟨nodeId', network, outcome, hcalls, hfinish⟩
  · rw [hnodes]
  · have hmem : nodeId' ∈ nodes := by
      cases hcalls with
      | propose hindex => exact hacts
      | noIndex exception => exact hacts
      | handle hpacket => exact hacts _ hpacket
    have hne : nodeId ≠ nodeId' := fun heq => hnode (heq ▸ hmem)
    have hsame := finish_nodes s network outcome hne
    rw [hfinish] at hsame
    exact hsame

/-- A run in which only one node learns anything: its log is the agreed one. -/
theorem subMap_of_learner {nodes : List EndpointId} {learner : EndpointId}
    (h : ((machine constants slaves).guarded (ActsIn nodes)).Run trace s)
    (hlearner : ∀ e ∈ nodes, e ≠ learner →
      (s.nodes e).configuredLog.paxosLog.availableIndices = [0]) (nodeId : EndpointId) :
    (s.nodes nodeId).configuredLog.paxosLog.log.SubMap
      (s.nodes learner).configuredLog.paxosLog.log := by
  intro i entry hentry
  have hidle : ∀ e ∉ nodes, s.nodes e = Node.new constants slaves := by
    intro e he
    apply h.invariant (I := fun _ s => s.nodes e = Node.new constants slaves)
    · rintro s rfl
      rfl
    · rintro past s created s' - hold ⟨a, hacts, hnext⟩
      rw [nodes_of_next hacts hnext he, hold]
  by_cases heq : nodeId = learner
  · rw [← heq, hentry]
  · by_cases hmem : nodeId ∈ nodes
    · obtain ⟨m, happlied⟩ := (inv_of_run (Machine.run_of_guarded h) nodeId).applied
      obtain ⟨last, havailable⟩ := happlied.wellFormed
      have hlast := havailable.getLast
      rw [hlearner nodeId hmem heq, List.getLast?_singleton] at hlast
      rw [havailable.unset i (by cases hlast; omega)] at hentry
      cases hentry
    · rw [hidle nodeId hmem] at hentry
      cases hentry

section ThreeSlaves

abbrev endpointA : EndpointId := ⟨"a", 0⟩

abbrev endpointB : EndpointId := ⟨"b", 0⟩

abbrev endpointC : EndpointId := ⟨"c", 0⟩

/-- `a` has its value accepted by `b`, and is the only one to learn it. -/
def roundActions (entry : PaxosLogEntry) : List Action :=
  [.propose endpointA 1 entry, .deliver 0, .deliver 0, .drop 0, .deliver 0, .deliver 0,
    .drop 2, .deliver 0, .deliver 0, .deliver 0, .deliver 2, .drop 3, .drop 2, .drop 1, .drop 0]

/-- The log removes `c` from the group, and `a` proposes under the new configuration. -/
def reconfigActions : List Action :=
  roundActions .notSet ++ roundActions (.reconfigStarted ⟨[⟨"a"⟩, ⟨"b"⟩]⟩) ++
    [.propose endpointA 1 .notSet]

/-- The machine in which only these two nodes act. -/
abbrev twoActing : Machine State Action Created :=
  (machine ⟨3⟩ [endpointA, endpointB, endpointC]).restrict (ActsIn [endpointA, endpointB])

/-- What can be evaluated of a run after which only `a` has learned something. -/
abbrev LearnedByA (s : State) : Prop :=
  (s.nodes endpointB).configuredLog.paxosLog.availableIndices = [0]

theorem subMap_of_learnedByA (h : twoActing.system.Run trace s) (hlearned : LearnedByA s)
    (nodeId : EndpointId) :
    (s.nodes nodeId).configuredLog.paxosLog.log.SubMap
      (s.nodes endpointA).configuredLog.paxosLog.log := by
  apply subMap_of_learner (Machine.guarded_of_restrict h)
  simp only [List.forall_mem_cons]
  exact ⟨fun hne => absurd rfl hne, fun _ => hlearned, by simp⟩

/-- Up to the proposal each handler is created in time. -/
theorem dictated_iff_reconfig :
    ∃ trace s agreed, (machine ⟨3⟩ [endpointA, endpointB, endpointC]).system.Run trace s ∧
      ⟨endpointA, 2, 2⟩ ∈ trace ∧
      governing [endpointA, endpointB, endpointC] agreed 2 = [endpointA, endpointB] ∧
      Dictated [endpointA, endpointB, endpointC] agreed s := by
  obtain ⟨trace, s, hrun, hlearned, hcreated, hgoverning, hforce⟩ :=
    twoActing.exists_run reconfigActions (p := fun r => LearnedByA r.2 ∧
      ⟨endpointA, 2, 2⟩ ∈ r.1 ∧
      governing [endpointA, endpointB, endpointC]
        (r.2.nodes endpointA).configuredLog.paxosLog.log 2 = [endpointA, endpointB] ∧
      ∀ c ∈ r.1, InForce ⟨3⟩ [endpointA, endpointB, endpointC]
        (r.2.nodes endpointA).configuredLog.paxosLog.log c) (by decide +kernel)
  have hrun' := Machine.run_of_guarded (Machine.guarded_of_restrict hrun)
  have hdictated := (dictated_iff hrun' (subMap_of_learnedByA hrun hlearned)).mpr hforce
  exact ⟨trace, s, _, hrun', hcreated, hgoverning, hdictated⟩

/-- The message about index 2 reaches `b` before the reconfiguration does: `b` creates the
handler under the old configuration. -/
theorem not_dictated :
    ¬ ∀ (constants : Constants) (slaves : List EndpointId) (trace : List Created) (s : State)
      (agreed : KeyMap ℕ PaxosLogEntry), (machine constants slaves).system.Run trace s →
        (∀ nodeId, (s.nodes nodeId).configuredLog.paxosLog.log.SubMap agreed) →
          Dictated slaves agreed s := by
  intro hdictated
  obtain ⟨trace, s, hrun, hlearned, hgoverning, hhandler⟩ :=
    twoActing.exists_run (reconfigActions ++ [.deliver 1]) (p := fun r => LearnedByA r.2 ∧
      governing [endpointA, endpointB, endpointC]
        (r.2.nodes endpointA).configuredLog.paxosLog.log 2 = [endpointA, endpointB] ∧
      ∃ h ∈ (r.2.nodes endpointB).multiPaxosHandler.paxosInstances 2,
        h.configEndpoints = [endpointA, endpointB, endpointC]) (by decide +kernel)
  obtain ⟨h, hsome, hold⟩ := hhandler
  have hrun' := Machine.run_of_guarded (Machine.guarded_of_restrict hrun)
  have hnew := (hdictated _ _ trace s _ hrun'
    (subMap_of_learnedByA hrun hlearned)).configEndpoints endpointB 2 h hsome
  rw [hold, hgoverning] at hnew
  cases hnew

end ThreeSlaves

end UniversalDB.ReconfigGroup
