import UniversalDB.Model.FailureDetector

/-! # Runs of the failure detectors in which the network stabilizes

Up to a time `stable` nodes start and crash, heartbeats get lost, and everything takes as
long as it likes. From then on nodes neither start nor crash, timers are late by at most
`late`, and every heartbeat takes at most `delay`: those of nodes that run arrive, and those
of nodes that have crashed arrive or are lost. -/

namespace UniversalDB.FailureDetector

open HeartbeatTracker (HEARTBEAT_SEND_PERIOD)

variable {n : ℕ}

def State.Runs (s : State n) (i : Fin n) : Prop := (s.nodes i).isSome

instance (s : State n) (i : Fin n) : Decidable (s.Runs i) :=
  inferInstanceAs (Decidable ((s.nodes i).isSome = true))

/-- The time does not pass the last moment for a heartbeat or a timer. -/
def Timely (stable late delay : ℕ) (s : State n) : Action n → Prop
  | .advance duration =>
      (∀ packet ∈ s.network, s.now + duration ≤ max packet.sentAt stable + delay) ∧
        ∀ i, ∀ node ∈ s.nodes i, s.now + duration ≤ max node.due stable + late
  | .start _ => s.now < stable
  | .crash _ => s.now < stable
  | .drop position =>
      s.now < stable ∨ ∀ packet ∈ s.network[position]?, ¬ s.Runs packet.src
  | _ => True

instance (stable late delay : ℕ) (s : State n) (a : Action n) :
    Decidable (Timely stable late delay s a) := by
  cases a <;> unfold Timely <;> infer_instance

/-! ## Steps -/

/-- What a timely step does. -/
inductive Step (endpoint : Fin n → EndpointId) (stable late delay : ℕ) (s : State n) :
    List (Event n) → State n → Prop where
  | advance (duration : ℕ)
      (hpackets : ∀ packet ∈ s.network, s.now + duration ≤ max packet.sentAt stable + delay)
      (hnodes : ∀ i, ∀ node ∈ s.nodes i, s.now + duration ≤ max node.due stable + late) :
      Step endpoint stable late delay s [] { s with now := s.now + duration }
  /-- A node starts or crashes. -/
  | change (i : Fin n) (node : Option Node) (hnow : s.now < stable)
      (hnode : ∀ node' ∈ node, node' = Node.new s.now) :
      Step endpoint stable late delay s [] (s.setNode i node)
  | heartbeat (i : Fin n) (node : Node) (hnode : s.nodes i = some node)
      (hdue : node.due ≤ s.now) :
      Step endpoint stable late delay s []
        { s.setNode i (some (node.heartbeat s.now)) with
          network := s.network ++ broadcast s.now i }
  | deliver (position : ℕ) (packet : Packet n) (node : Node)
      (hpacket : s.network[position]? = some packet)
      (hnode : s.nodes packet.dst = some node) :
      Step endpoint stable late delay s []
        (State.setNode { s with network := s.network.eraseIdx position } packet.dst
          (some { node with
            heartbeatTracker :=
              node.heartbeatTracker.handleHeartbeat (endpoint packet.src) }))
  /-- A heartbeat gets lost, or arrives at a node that does not run. -/
  | lose (position : ℕ) (packet : Packet n) (hpacket : s.network[position]? = some packet)
      (hlost : s.now < stable ∨ ¬ s.Runs packet.src ∨ ¬ s.Runs packet.dst) :
      Step endpoint stable late delay s []
        { s with network := s.network.eraseIdx position }
  /-- A tracker answers with what `aliveEndpoints` returns. -/
  | answer (i : Fin n) (node : Node) (event : Event n) (hnode : s.nodes i = some node)
      (hevent : event = .aliveEndpoints i s.now node.heartbeatTracker.aliveEndpoints.1 ∨
        event = .leaderEndpointId i s.now node.heartbeatTracker.aliveEndpoints.1.head?) :
      Step endpoint stable late delay s [event]
        (s.setNode i (some { node with
          heartbeatTracker := node.heartbeatTracker.aliveEndpoints.2 }))

variable {endpoint : Fin n → EndpointId} {stable late delay : ℕ} {s s' : State n}
  {events : List (Event n)}

theorem step_of_next {a : Action n} (hok : Timely stable late delay s a)
    (h : next endpoint s a = some (events, s')) :
    Step endpoint stable late delay s events s' := by
  cases a with
  | advance duration =>
      cases h
      exact .advance duration hok.1 hok.2
  | start i =>
      simp only [next] at h
      split at h
      · cases h
      · cases h
        exact .change i _ hok fun _ hmem => (Option.some.inj hmem).symm
  | crash i =>
      simp only [next] at h
      split at h
      · cases h
      · cases h
        exact .change i _ hok fun _ hmem => nomatch hmem
  | heartbeat i =>
      simp only [next] at h
      split at h
      · cases h
      · rename_i node hnode
        split at h
        · rename_i hdue
          cases h
          exact .heartbeat i node hnode hdue
        · cases h
  | deliver position =>
      simp only [next] at h
      split at h
      · cases h
      · rename_i packet hpacket
        split at h
        · rename_i hnode
          cases h
          exact .lose position packet hpacket (.inr (.inr (by simp [State.Runs, hnode])))
        · rename_i node hnode
          cases h
          exact .deliver position packet node hpacket hnode
  | drop position =>
      simp only [next] at h
      split at h
      · cases h
      · rename_i packet hpacket
        cases h
        exact .lose position packet hpacket (hok.imp_right fun hnot => .inl (hnot packet hpacket))
  | aliveEndpoints i =>
      simp only [next] at h
      split at h
      · cases h
      · rename_i node hnode
        cases h
        exact .answer i node _ hnode (.inl rfl)
  | leaderEndpointId i =>
      simp only [next] at h
      split at h
      · cases h
      · rename_i node hnode
        cases h
        exact .answer i node _ hnode (.inr rfl)

/-- The rule for timely runs. -/
theorem invariant_of_run {I : List (Event n) → State n → Prop}
    (hinit : I [] (machine endpoint).init)
    (hstep : ∀ trace s events s', I trace s → Step endpoint stable late delay s events s' →
      I (trace ++ events) s')
    {trace : List (Event n)}
    (h : ((machine endpoint).guarded (Timely stable late delay)).Run trace s) : I trace s := by
  refine h.invariant ?_ ?_
  · rintro s rfl
    exact hinit
  · rintro trace s events s' - hI ⟨a, hok, hnext⟩
    exact hstep trace s events s' hI (step_of_next hok hnext)

/-! ## Timers -/

/-- When the timer of a node that runs is due. -/
def State.due (s : State n) (i : Fin n) : Option ℕ := (s.nodes i).map Node.due

theorem due_setNode (s : State n) (i : Fin n) (node : Option Node) :
    (s.setNode i node).due = Function.update s.due i (node.map Node.due) := by
  funext j
  by_cases hj : j = i
  · subst hj
    simp [State.due, State.setNode]
  · simp [State.due, State.setNode, hj]

/-- Another tracker leaves the timers as they are. -/
theorem due_setTracker {i : Fin n} {node : Node} (hnode : s.nodes i = some node)
    (tracker : HeartbeatTracker) :
    (s.setNode i (some { node with heartbeatTracker := tracker })).due = s.due := by
  rw [due_setNode]
  refine Function.update_eq_self_iff.mpr ?_
  simp [State.due, hnode]

theorem runs_iff {i : Fin n} : s.Runs i ↔ ∃ due, s.due i = some due := by
  simp [State.Runs, State.due, Option.isSome_iff_exists]

theorem runs_congr (hdue : s'.due = s.due) {i : Fin n} : s'.Runs i ↔ s.Runs i := by
  rw [runs_iff, runs_iff, hdue]

theorem runs_setNode {i : Fin n} (hi : s.Runs i) (node : Node) (j : Fin n) :
    (s.setNode i (some node)).Runs j ↔ s.Runs j := by
  by_cases hj : j = i
  · subst hj
    simp [State.Runs, State.setNode] at hi ⊢
    exact hi
  · simp [State.Runs, State.setNode, hj]

theorem runs_of_nodes {i : Fin n} {node : Node} (h : s.nodes i = some node) : s.Runs i :=
  Option.isSome_of_mem h

/-- Nothing is later than it may be, and what comes from a node that has crashed was sent
before `stable`. -/
structure Punctual (stable late delay : ℕ) (s : State n) : Prop where
  sent : ∀ packet ∈ s.network, packet.sentAt ≤ s.now
  packets : ∀ packet ∈ s.network, s.now ≤ max packet.sentAt stable + delay
  set : ∀ i, ∀ due ∈ s.due i, due ≤ s.now + HEARTBEAT_SEND_PERIOD
  timers : ∀ i, ∀ due ∈ s.due i, s.now ≤ max due stable + late
  crashed : ∀ packet ∈ s.network, ¬ s.Runs packet.src → packet.sentAt ≤ stable

/-- A step that takes heartbeats away and sets no timer. -/
theorem Punctual.less (h : Punctual stable late delay s) (hnow : s'.now = s.now)
    (hdue : s'.due = s.due) (hnetwork : ∀ packet ∈ s'.network, packet ∈ s.network) :
    Punctual stable late delay s' where
  sent := fun packet hmem => hnow ▸ h.sent packet (hnetwork packet hmem)
  packets := fun packet hmem => hnow ▸ h.packets packet (hnetwork packet hmem)
  set := by
    rw [hnow, hdue]
    exact h.set
  timers := by
    rw [hnow, hdue]
    exact h.timers
  crashed := by
    intro packet hmem hnot
    rw [runs_congr hdue] at hnot
    exact h.crashed packet (hnetwork packet hmem) hnot

theorem mem_broadcast {now : ℕ} {i : Fin n} {packet : Packet n} :
    packet ∈ broadcast now i ↔ packet.src = i ∧ packet.sentAt = now := by
  simp only [broadcast, List.mem_map, List.mem_finRange, true_and]
  constructor
  · rintro ⟨dst, rfl⟩
    exact ⟨rfl, rfl⟩
  · rintro ⟨rfl, rfl⟩
    exact ⟨packet.dst, rfl⟩

theorem Punctual.step (h : Punctual stable late delay s)
    (hstep : Step endpoint stable late delay s events s') : Punctual stable late delay s' := by
  cases hstep with
  | advance duration hpackets hnodes =>
      refine ⟨?_, hpackets, ?_, ?_, h.crashed⟩
      · exact fun packet hmem => (h.sent packet hmem).trans (Nat.le_add_right _ _)
      · intro i due hdue
        have hle := h.set i due hdue
        change due ≤ s.now + duration + HEARTBEAT_SEND_PERIOD
        omega
      · intro i due hdue
        obtain ⟨node, hnode, rfl⟩ := Option.map_eq_some_iff.mp hdue
        exact hnodes i node hnode
  | change i node hnow hnode =>
      have hdues : ∀ j, ∀ due ∈ (s.setNode i node).due j,
          due ≤ s.now + HEARTBEAT_SEND_PERIOD := by
        intro j due hdue
        rw [due_setNode] at hdue
        by_cases hj : j = i
        · subst hj
          rw [Function.update_self] at hdue
          obtain ⟨node', hnode', rfl⟩ := Option.map_eq_some_iff.mp hdue
          rw [hnode node' hnode']
          exact le_rfl
        · rw [Function.update_of_ne hj] at hdue
          exact h.set j due hdue
      refine ⟨h.sent, h.packets, hdues, ?_, ?_⟩
      · intro j due _
        change s.now ≤ _
        omega
      · exact fun packet hmem _ => (h.sent packet hmem).trans hnow.le
  | heartbeat i node hnode hdue =>
      have hdues : ∀ j, ∀ due ∈ (s.setNode i (some (node.heartbeat s.now))).due j,
          due = s.now + HEARTBEAT_SEND_PERIOD ∨ due ∈ s.due j := by
        intro j due hmem
        rw [due_setNode] at hmem
        by_cases hj : j = i
        · subst hj
          rw [Function.update_self] at hmem
          exact .inl (Option.some.inj hmem).symm
        · rw [Function.update_of_ne hj] at hmem
          exact .inr hmem
      refine ⟨?_, ?_, ?_, ?_, ?_⟩
      · intro packet hmem
        rcases List.mem_append.mp hmem with hold | hnew
        · exact h.sent packet hold
        · exact (mem_broadcast.mp hnew).2.le
      · intro packet hmem
        rcases List.mem_append.mp hmem with hold | hnew
        · exact h.packets packet hold
        · rw [(mem_broadcast.mp hnew).2]
          exact (le_max_left _ _).trans (Nat.le_add_right _ _)
      · intro j due hmem
        rcases hdues j due hmem with rfl | hold
        · exact le_rfl
        · exact h.set j due hold
      · intro j due hmem
        rcases hdues j due hmem with rfl | hold
        · exact (Nat.le_add_right _ _).trans ((le_max_left _ _).trans (Nat.le_add_right _ _))
        · exact h.timers j due hold
      · intro packet hmem hnot
        have hnot' : ¬ s.Runs packet.src := fun hsrc =>
          hnot ((runs_setNode (runs_of_nodes hnode) _ _).mpr hsrc)
        rcases List.mem_append.mp hmem with hold | hnew
        · exact h.crashed packet hold hnot'
        · rw [(mem_broadcast.mp hnew).1] at hnot'
          exact absurd (runs_of_nodes hnode) hnot'
  | deliver position packet node hpacket hnode =>
      exact h.less rfl (due_setTracker hnode _) fun _ => List.mem_of_mem_eraseIdx
  | lose position packet hpacket hlost =>
      exact h.less rfl rfl fun _ => List.mem_of_mem_eraseIdx
  | answer i node event hnode hevent =>
      exact h.less rfl (due_setTracker hnode _) fun _ => id

end UniversalDB.FailureDetector
