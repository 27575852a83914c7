import UniversalDB.Model.ReconfigGroup
import UniversalDB.Verification.PaxosConfigManager
import UniversalDB.Verification.SinglePaxosHandler

/-! # What the nodes of a reconfigured group have read -/

namespace UniversalDB.ReconfigGroup

open PaxosLog PaxosConfigManager SinglePaxosHandler

variable {constants : Constants} {slaves : List EndpointId} {trace created : List Created}
  {nodeId : EndpointId} {node node' : Node}

/-! ## One node -/

/-- The configuration that a node with the entries below `m` reads for index `i`. -/
structure ReadAt (slaves : List EndpointId) (log : KeyMap ℕ PaxosLogEntry) (i m : ℕ)
    (configEndpoints : List EndpointId) : Prop where
  below : ∀ j < m, (log j).isSome
  configEndpoints : configEndpoints = governing slaves log (min i m)

/-- The handlers of a node, each with the event of its creation. -/
structure NodeInv (constants : Constants) (slaves : List EndpointId) (trace : List Created)
    (nodeId : EndpointId) (node : Node) : Prop where
  applied : ∃ m, AppliedTo slaves node.configuredLog m
  bound : ∀ i, (node.configuredLog.paxosLog.log i).isSome → i < 2 ^ 32
  handlers : ∀ i h, node.multiPaxosHandler.paxosInstances i = some h →
    h.constants = constants ∧ h.paxosLogIndex = i ∧
      ∃ m, ⟨nodeId, i, m⟩ ∈ trace ∧
        ReadAt slaves node.configuredLog.paxosLog.log i m h.configEndpoints
  created : ∀ i m, ⟨nodeId, i, m⟩ ∈ trace →
    ∃ h, node.multiPaxosHandler.paxosInstances i = some h ∧
      ReadAt slaves node.configuredLog.paxosLog.log i m h.configEndpoints

theorem ReadAt.of_subMap {log log' : KeyMap ℕ PaxosLogEntry} {i m : ℕ}
    {configEndpoints : List EndpointId} (h : ReadAt slaves log i m configEndpoints)
    (hsub : log.SubMap log') : ReadAt slaves log' i m configEndpoints := by
  have hsame : ∀ j < m, log j = log' j := by
    intro j hj
    obtain ⟨e, he⟩ := Option.isSome_iff_exists.mp (h.below j hj)
    rw [he, hsub j e he]
  constructor
  · intro j hj
    rw [← hsame j hj]
    exact h.below j hj
  · rw [h.configEndpoints]
    exact governing_congr fun j hj => hsame j (by omega)

/-- What the provider reads is the configuration that the entries in front of the first gap
dictate, even for an index behind the gap. -/
theorem NodeInv.config (h : NodeInv constants slaves trace nodeId node) {i : ℕ}
    {configEndpoints : List EndpointId}
    (hconfig : node.configuredLog.paxosConfigManager.config i = .ok configEndpoints) :
    ∃ m, node.configuredLog.paxosLog.nextAvailableIndex = .ok m ∧
      ReadAt slaves node.configuredLog.paxosLog.log i m configEndpoints := by
  obtain ⟨m, happlied⟩ := h.applied
  obtain ⟨-, hinv⟩ := happlied.timeline fun i hi => (h.bound i hi).trans (by decide)
  have hm : m ≤ 2 ^ 32 := by
    by_contra hlt
    have hlast := h.bound _ (happlied.gap.below (2 ^ 32) (by omega))
    omega
  refine ⟨m, happlied.nextAvailableIndex, happlied.gap.below, ?_⟩
  rcases hinv.config_cases hm i with hread | ⟨exception, hthrown⟩
  · rw [hread] at hconfig
    exact (Except.ok.inj hconfig).symm
  · rw [hthrown] at hconfig
    cases hconfig

theorem nodeInv_new (constants : Constants) (slaves : List EndpointId) (nodeId : EndpointId) :
    NodeInv constants slaves [] nodeId (Node.new constants slaves) := by
  constructor
  · exact ⟨0, appliedTo_new slaves⟩
  · intro i hi
    cases hi
  · intro i h hi
    cases hi
  · simp

/-- Other nodes may create handlers. -/
theorem NodeInv.extend (h : NodeInv constants slaves trace nodeId node)
    (hcreated : ∀ c ∈ created, c.node ≠ nodeId) :
    NodeInv constants slaves (trace ++ created) nodeId node := by
  refine ⟨h.applied, h.bound, ?_, ?_⟩
  · intro i handler hi
    obtain ⟨hconstants, hindex, m, hmem, hread⟩ := h.handlers i handler hi
    exact ⟨hconstants, hindex, m, List.mem_append_left _ hmem, hread⟩
  · intro i m hmem
    rcases List.mem_append.mp hmem with hold | hnew
    · exact h.created i m hold
    · exact absurd rfl (hcreated _ hnew)

theorem NodeInv.getInstance (h : NodeInv constants slaves trace nodeId node) {index : ℕ}
    (hcall : node.getInstance constants nodeId index = .ok (node', created)) :
    NodeInv constants slaves (trace ++ created) nodeId node' ∧ (∀ c ∈ created, c.node = nodeId) ∧
      node'.configuredLog = node.configuredLog ∧
      ∃ handler, node'.multiPaxosHandler.paxosInstances index = some handler := by
  unfold Node.getInstance at hcall
  split at hcall
  · rename_i handler hsome
    cases hcall
    rw [List.append_nil]
    exact ⟨h, by simp, rfl, handler, hsome⟩
  · rename_i hnone
    obtain ⟨configEndpoints, hconfig⟩ : ∃ configEndpoints,
        node.configuredLog.paxosConfigManager.config index = .ok configEndpoints := by
      cases hread : node.configuredLog.paxosConfigManager.config index with
      | ok configEndpoints => exact ⟨configEndpoints, rfl⟩
      | error exception => simp [Node.instanceProvider, hread, bind, Except.bind] at hcall
    obtain ⟨m, hnext, hread⟩ := h.config hconfig
    simp only [Node.instanceProvider, hconfig, hnext, bind, Except.bind, pure,
      Except.pure] at hcall
    cases hcall
    refine ⟨⟨h.applied, h.bound, ?_, ?_⟩, by simp, rfl, ?_⟩
    · intro i handler hi
      simp only [MultiPaxosHandler.setInstance, KeyMap.assign_apply] at hi
      split at hi
      · rename_i hi'
        subst i
        cases hi
        exact ⟨rfl, rfl, m, by simp, hread⟩
      · obtain ⟨hconstants, hlog, m', hmem, hread'⟩ := h.handlers i handler hi
        exact ⟨hconstants, hlog, m', List.mem_append_left _ hmem, hread'⟩
    · intro i m' hmem
      simp only [MultiPaxosHandler.setInstance, KeyMap.assign_apply]
      rcases List.mem_append.mp hmem with hold | hnew
      · obtain ⟨handler, hsome, hread'⟩ := h.created i m' hold
        have hne : i ≠ index := by
          rintro rfl
          rw [hnone] at hsome
          cases hsome
        exact ⟨handler, by rw [if_neg hne, hsome], hread'⟩
      · cases List.mem_singleton.mp hnew
        exact ⟨_, if_pos rfl, hread⟩
    · exact ⟨_, KeyMap.assign_self _ _ _⟩

/-- A handler is replaced by what a call has made of it. -/
theorem NodeInv.setInstance (h : NodeInv constants slaves trace nodeId node) {index : ℕ}
    {handler handler' : SinglePaxosHandler EndpointId}
    (hsome : node.multiPaxosHandler.paxosInstances index = some handler)
    (hconstants : handler'.constants = handler.constants)
    (hindex : handler'.paxosLogIndex = handler.paxosLogIndex)
    (hendpoints : handler'.configEndpoints = handler.configEndpoints) :
    NodeInv constants slaves trace nodeId { node with
      multiPaxosHandler := node.multiPaxosHandler.setInstance index handler' } := by
  refine ⟨h.applied, h.bound, ?_, ?_⟩
  · intro i g hi
    simp only [MultiPaxosHandler.setInstance, KeyMap.assign_apply] at hi
    split at hi
    · rename_i hi'
      subst i
      cases hi
      rw [hconstants, hindex, hendpoints]
      exact h.handlers index handler hsome
    · exact h.handlers i g hi
  · intro i m hmem
    obtain ⟨g, hg, hread⟩ := h.created i m hmem
    simp only [MultiPaxosHandler.setInstance, KeyMap.assign_apply]
    split
    · rename_i hi
      subst i
      rw [hsome] at hg
      cases hg
      rw [← hendpoints] at hread
      exact ⟨handler', rfl, hread⟩
    · exact ⟨g, hg, hread⟩

/-- Entries are set, and no callback throws. -/
theorem NodeInv.setEntries (h : NodeInv constants slaves trace nodeId node)
    {entries : List (ℕ × PaxosLogEntry)} (hentries : ∀ p ∈ entries, p.1 < 2 ^ 32)
    {configuredLog : ConfiguredLog}
    (hcall : node.configuredLog.setEntries entries = .ok configuredLog) :
    NodeInv constants slaves trace nodeId { node with configuredLog := configuredLog } := by
  obtain ⟨m, happlied⟩ := h.applied
  rcases AppliedTo.setEntries entries (fun p hp => (hentries p hp).trans (by decide)) happlied
    (fun i hi => (h.bound i hi).trans (by decide)) with
    ⟨c, m', hset, happlied', hlog⟩ | ⟨⟨exception, hset⟩, -⟩
  · rw [hcall] at hset
    cases hset
    have hsub : node.configuredLog.paxosLog.log.SubMap configuredLog.paxosLog.log := by
      intro i e he
      rw [hlog i, he]
      rfl
    refine ⟨⟨m', happlied'⟩, ?_, ?_, ?_⟩
    · intro i hi
      simp only [hlog i] at hi
      cases hold : node.configuredLog.paxosLog.log i with
      | some e => exact h.bound i (by rw [hold]; rfl)
      | none =>
          rw [hold, Option.none_or] at hi
          obtain ⟨e, he⟩ := Option.isSome_iff_exists.mp hi
          exact hentries _ (mem_of_firstEntry he)
    · intro i handler hi
      obtain ⟨hconstants, hindex, m₁, hmem, hread⟩ := h.handlers i handler hi
      exact ⟨hconstants, hindex, m₁, hmem, hread.of_subMap hsub⟩
    · intro i m₁ hmem
      obtain ⟨handler, hsome, hread⟩ := h.created i m₁ hmem
      exact ⟨handler, hsome, hread.of_subMap hsub⟩
  · rw [hcall] at hset
    cases hset

theorem NodeInv.propose (h : NodeInv constants slaves trace nodeId node) {index draw : ℕ}
    {entry : PaxosLogEntry} {packets : List Packet}
    (hindex : node.configuredLog.paxosLog.nextAvailableIndex = .ok index)
    (hcall : node.propose constants nodeId index draw entry = .ok (node', created, packets)) :
    NodeInv constants slaves (trace ++ created) nodeId node' ∧
      ∀ c ∈ created, c.node = nodeId := by
  simp only [Node.propose, bind, Except.bind] at hcall
  cases hget : node.getInstance constants nodeId index with
  | error exception => simp [hget] at hcall
  | ok r =>
      obtain ⟨node₁, created₁⟩ := r
      obtain ⟨hinv, hnode, hlog, handler, hsome⟩ := h.getInstance hget
      rw [hget] at hcall
      simp only [MultiPaxosHandler.propose, hlog, hindex, bind, Except.bind, pure, Except.pure]
        at hcall
      cases hcall
      refine ⟨?_, hnode⟩
      rw [MultiPaxosHandler.getInstance, hsome, Option.getD_some, ← hlog]
      exact hinv.setInstance hsome rfl rfl rfl

theorem NodeInv.handle {packet : Packet}
    (h : NodeInv constants slaves trace packet.dst node) {packets : List Packet}
    (hcall : node.handle constants packet = .ok (node', created, packets)) :
    NodeInv constants slaves (trace ++ created) packet.dst node' ∧
      ∀ c ∈ created, c.node = packet.dst := by
  unfold Node.handle at hcall
  cases hpayload : packet.payload with
  | paxosMessage message =>
      simp only [hpayload, bind, Except.bind] at hcall
      cases hget : node.getInstance constants packet.dst message.paxosIndex.toNat with
      | error exception => simp [hget] at hcall
      | ok r =>
          obtain ⟨node₁, created₁⟩ := r
          obtain ⟨hinv, hnode, hlog, handler, hsome⟩ := h.getInstance hget
          simp only [hget, MultiPaxosHandler.handleIncomingMessage, bind, Except.bind,
            MultiPaxosHandler.getInstance, hsome, Option.getD_some] at hcall
          cases hdispatch : MultiPaxosHandler.dispatch handler packet.src message.content with
          | error exception => simp [hdispatch] at hcall
          | ok r =>
              obtain ⟨handler', effects⟩ := r
              obtain ⟨hconstants, hindex, hendpoints, hwritten⟩ :=
                (handled_of_dispatch hdispatch).frame
              have hset := hinv.setInstance hsome hconstants hindex hendpoints
              have hbound : ∀ p ∈ effects.filterMap written, p.1 < 2 ^ 32 := by
                intro p hp
                obtain ⟨effect, heffect, hp⟩ := List.mem_filterMap.mp hp
                cases effect with
                | setEntry index entry =>
                    cases hp
                    obtain ⟨-, hlogIndex, -⟩ := hinv.handlers _ handler hsome
                    rw [hwritten index entry heffect, hlogIndex]
                    exact message.paxosIndex.toNat_lt
                | _ => cases hp
              simp only [hdispatch, pure, Except.pure] at hcall
              cases hentries : node₁.configuredLog.setEntries (effects.filterMap written) with
              | error exception => simp [hentries] at hcall
              | ok configuredLog =>
                  simp only [hentries] at hcall
                  cases hcall
                  exact ⟨hset.setEntries hbound hentries, hnode⟩
  | syncRequest request =>
      simp only [hpayload, bind, Except.bind] at hcall
      split at hcall
      · cases hcall
      · cases hcall
        rw [List.append_nil]
        exact ⟨h, by simp⟩
  | syncResponse response =>
      simp only [hpayload, bind, Except.bind] at hcall
      split at hcall
      · cases hcall
      · rename_i configuredLog hentries
        cases hcall
        rw [List.append_nil]
        refine ⟨h.setEntries ?_ hentries, by simp⟩
        intro p hp
        obtain ⟨entryWithIndex, -, rfl⟩ := List.mem_map.mp hp
        exact entryWithIndex.index.toNat_lt

/-- A node that throws keeps its handlers. -/
theorem NodeInv.stop (h : NodeInv constants slaves trace nodeId node)
    (exception : UniversalException) :
    NodeInv constants slaves trace nodeId { node with exception := some exception } :=
  ⟨h.applied, h.bound, h.handlers, h.created⟩

/-! ## All nodes -/

variable {s s' : State}

def Inv (constants : Constants) (slaves : List EndpointId) (trace : List Created) (s : State) :
    Prop :=
  ∀ nodeId, NodeInv constants slaves trace nodeId (s.nodes nodeId)

theorem Inv.finish (h : Inv constants slaves trace s) {network : List Packet}
    {outcome : Outcome}
    (houtcome : ∀ node' created packets, outcome = .ok (node', created, packets) →
      NodeInv constants slaves (trace ++ created) nodeId node' ∧
        ∀ c ∈ created, c.node = nodeId) :
    Inv constants slaves (trace ++ (s.finish nodeId network outcome).1)
      (s.finish nodeId network outcome).2 := by
  match outcome with
  | .ok (node', created, packets) =>
      obtain ⟨hinv, hnode⟩ := houtcome node' created packets rfl
      apply (Function.forall_update_iff s.nodes fun nodeId node =>
        NodeInv constants slaves (trace ++ created) nodeId node).mpr
      refine ⟨hinv, ?_⟩
      intro nodeId' hid
      apply (h nodeId').extend
      intro c hc heq
      exact hid (heq.symm.trans (hnode c hc))
  | .error exception =>
      simp only [State.finish, List.append_nil]
      exact (Function.forall_update_iff s.nodes fun nodeId node =>
        NodeInv constants slaves trace nodeId node).mpr
          ⟨(h nodeId).stop exception, fun nodeId' _ => h nodeId'⟩

/-- The call of a handler that an action makes on a node, and how it ends. -/
inductive Calls (constants : Constants) (s : State) : Action → EndpointId → Outcome → Prop where
  | propose {nodeId : EndpointId} {index draw : ℕ} {entry : PaxosLogEntry}
      (hindex : (s.nodes nodeId).configuredLog.paxosLog.nextAvailableIndex = .ok index) :
      Calls constants s (.propose nodeId draw entry) nodeId
        ((s.nodes nodeId).propose constants nodeId index draw entry)
  | noIndex {nodeId : EndpointId} {draw : ℕ} {entry : PaxosLogEntry}
      (exception : UniversalException) :
      Calls constants s (.propose nodeId draw entry) nodeId (.error exception)
  | handle {position : ℕ} {packet : Packet} (hpacket : s.network[position]? = some packet) :
      Calls constants s (.deliver position) packet.dst
        ((s.nodes packet.dst).handle constants packet)

/-- A step is a call on one node, or leaves all nodes as they are. -/
theorem next_cases {a : Action} (hnext : next constants s a = some (created, s')) :
    (created = [] ∧ s'.nodes = s.nodes) ∨
      ∃ nodeId network outcome, Calls constants s a nodeId outcome ∧
        s.finish nodeId network outcome = (created, s') := by
  cases a with
  | propose nodeId draw entry =>
      right
      simp only [next] at hnext
      split at hnext
      · split at hnext
        · rename_i index hindex
          exact ⟨nodeId, s.network, _, .propose hindex, Option.some.inj hnext⟩
        · rename_i exception hindex
          exact ⟨nodeId, s.network, _, .noIndex exception, Option.some.inj hnext⟩
      · cases hnext
  | sync nodeId =>
      left
      simp only [next] at hnext
      split at hnext <;> cases hnext
      exact ⟨rfl, rfl⟩
  | deliver position =>
      simp only [next] at hnext
      split at hnext
      · cases hnext
      · rename_i packet hpacket
        split at hnext
        · right
          exact ⟨packet.dst, _, _, .handle hpacket, Option.some.inj hnext⟩
        · left
          cases hnext
          exact ⟨rfl, rfl⟩
  | drop position =>
      left
      simp only [next] at hnext
      split at hnext <;> cases hnext
      exact ⟨rfl, rfl⟩

theorem Inv.next (h : Inv constants slaves trace s) {a : Action}
    (hnext : next constants s a = some (created, s')) :
    Inv constants slaves (trace ++ created) s' := by
  rcases next_cases hnext with ⟨rfl, hnodes⟩ | ⟨nodeId, network, outcome, hcalls, hfinish⟩
  · intro nodeId
    rw [List.append_nil, hnodes]
    exact h nodeId
  · have hinv : Inv constants slaves (trace ++ (s.finish nodeId network outcome).1)
        (s.finish nodeId network outcome).2 := by
      apply h.finish
      intro node' created packets houtcome
      cases hcalls with
      | propose hindex => exact (h nodeId).propose hindex houtcome
      | noIndex exception => cases houtcome
      | handle hpacket => exact (h _).handle houtcome
    rw [hfinish] at hinv
    exact hinv

theorem inv_of_run (h : (machine constants slaves).system.Run trace s) :
    Inv constants slaves trace s := by
  apply h.invariant
  · rintro s rfl nodeId
    exact nodeInv_new constants slaves nodeId
  · rintro past s created s' - hinv ⟨a, -, hnext⟩
    exact hinv.next hnext

end UniversalDB.ReconfigGroup
