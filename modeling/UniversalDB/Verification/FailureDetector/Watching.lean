import UniversalDB.Library.Watchdog
import UniversalDB.Verification.FailureDetector.Timing
import UniversalDB.Verification.HeartbeatTracker

/-! # What the trackers count

Behind the tracker of a node there is a watchdog for every node. Once the network is stable,
the watchdog of a node that runs is fed, and that of a node that has crashed lapses. -/

namespace UniversalDB.FailureDetector

open HeartbeatTracker
open Watchdog

variable {n : ℕ} {endpoint : Fin n → EndpointId} {stable late delay : ℕ} {s s' : State n}
  {events : List (Event n)}

/-! ## The next heartbeat -/

/-- A heartbeat of node `j` arrives at node `i` by the given time. -/
def Expected (stable late delay : ℕ) (s : State n) (j i : Fin n) (time : ℕ) : Prop :=
  (∃ packet ∈ s.network, packet.src = j ∧ packet.dst = i ∧
    max packet.sentAt stable + delay ≤ time) ∨
  ∃ due ∈ s.due j, max due stable + late + delay ≤ time

theorem Expected.now_le {j i : Fin n} {time : ℕ}
    (h : Expected stable late delay s j i time) (hs : Punctual stable late delay s) :
    s.now ≤ time := by
  rcases h with ⟨packet, hmem, -, -, hle⟩ | ⟨due, hdue, hle⟩
  · exact (hs.packets packet hmem).trans hle
  · have htimer := hs.timers j due hdue
    omega

theorem Expected.of_subset {j i : Fin n} {time : ℕ}
    (h : Expected stable late delay s j i time) (hdue : s'.due j = s.due j)
    (hnetwork : ∀ packet ∈ s.network, packet.src = j → packet.dst = i →
      packet ∈ s'.network) : Expected stable late delay s' j i time := by
  rcases h with ⟨packet, hmem, hsrc, hdst, hle⟩ | hnext
  · exact .inl ⟨packet, hnetwork packet hmem hsrc hdst, hsrc, hdst, hle⟩
  · refine .inr ?_
    rw [hdue]
    exact hnext

/-- The heartbeat that a node owes when its timer is due is on its way. -/
theorem Expected.heartbeat {j i : Fin n} {time : ℕ} {node : Node}
    (h : Expected stable late delay s j i time) (hs : Punctual stable late delay s)
    (k : Fin n) : Expected stable late delay
      { s.setNode k (some node) with network := s.network ++ broadcast s.now k } j i time := by
  by_cases hj : j = k
  · subst hj
    rcases h with ⟨packet, hmem, hsrc, hdst, hle⟩ | ⟨due, hdue, hle⟩
    · exact .inl ⟨packet, List.mem_append_left _ hmem, hsrc, hdst, hle⟩
    · have htimer := hs.timers j due hdue
      refine .inl ⟨⟨j, i, s.now⟩, List.mem_append_right _ (mem_broadcast.mpr ⟨rfl, rfl⟩), rfl,
        rfl, ?_⟩
      change max s.now stable + delay ≤ time
      omega
  · refine h.of_subset ?_ fun packet hmem _ _ => List.mem_append_left _ hmem
    change (s.setNode k (some node)).due j = s.due j
    rw [due_setNode, Function.update_of_ne hj]

/-! ## Counts -/

/-- The time from which on no tracker gives up a node that runs. -/
def fedBy (stable late delay : ℕ) : ℕ := stable + HEARTBEAT_SEND_PERIOD + late + delay

/-- The time from which on no tracker keeps a node that has crashed. -/
def lapsedBy (stable late delay : ℕ) : ℕ :=
  stable + delay + HEARTBEAT_FAILURE_COUNT.toNat * (HEARTBEAT_SEND_PERIOD + late)

/-- `counts` are behind the tracker of node `i`, whose timer is due at `due`. -/
structure Watches (endpoint : Fin n → EndpointId) (stable late delay : ℕ) (s : State n)
    (i : Fin n) (due : ℕ) (counts : EndpointId → Option ℕ) : Prop where
  started : HEARTBEAT_SEND_PERIOD ≤ due
  members : ∀ endpointId count, counts endpointId = some count → ∃ j, endpointId = endpoint j
  /-- A count is a number of periods that have passed. -/
  passed : ∀ endpointId count, counts endpointId = some count →
    (count + 1) * HEARTBEAT_SEND_PERIOD ≤ due
  runs : ∀ j, s.Runs j → ∃ time, Expected stable late delay s j i time ∧
    (time ≤ fedBy stable late delay ∨ ∃ count, counts (endpoint j) = some count ∧
      Fed HEARTBEAT_SEND_PERIOD HEARTBEAT_FAILURE_COUNT.toNat s.now due count time)
  crashed : ∀ j, ¬ s.Runs j → ∀ count, counts (endpoint j) = some count →
    LapsesBy HEARTBEAT_SEND_PERIOD late HEARTBEAT_FAILURE_COUNT.toNat stable due count
      (lapsedBy stable late delay)

/-- A node sends its next heartbeat when its timer runs. -/
theorem expected_next {j : Fin n} {due : ℕ} (hdue : s.due j = some due) (i : Fin n) :
    Expected stable late delay s j i (max due stable + late + delay) :=
  .inr ⟨due, hdue, le_rfl⟩

/-- While heartbeats of nodes that have crashed may still arrive. -/
theorem lapses_of_early (hs : Punctual stable late delay s) (hnow : s.now ≤ stable + delay)
    {i : Fin n} {due : ℕ} (hdue : s.due i = some due) (count : ℕ) :
    LapsesBy HEARTBEAT_SEND_PERIOD late HEARTBEAT_FAILURE_COUNT.toNat stable due count
      (lapsedBy stable late delay) := by
  have hset := hs.set i due hdue
  apply lapsesBy_of_due
  simp only [lapsedBy, HEARTBEAT_SEND_PERIOD, HEARTBEAT_FAILURE_COUNT] at hset ⊢
  simp
  omega

/-- There is a first heartbeat after the network has become stable. -/
theorem next_le_fedBy (hs : Punctual stable late delay s) (hnow : s.now ≤ stable) {j : Fin n}
    {due : ℕ} (hdue : s.due j = some due) :
    max due stable + late + delay ≤ fedBy stable late delay := by
  have hset := hs.set j due hdue
  unfold fedBy
  omega

/-- Before the network is stable there is little to ask for. -/
theorem watches_of_early (hs : Punctual stable late delay s) (hnow : s.now ≤ stable)
    {i : Fin n} {due : ℕ} (hdue : s.due i = some due) {counts : EndpointId → Option ℕ}
    (hstarted : HEARTBEAT_SEND_PERIOD ≤ due)
    (hmembers : ∀ endpointId count, counts endpointId = some count →
      ∃ j, endpointId = endpoint j)
    (hpassed : ∀ endpointId count, counts endpointId = some count →
      (count + 1) * HEARTBEAT_SEND_PERIOD ≤ due) :
    Watches endpoint stable late delay s i due counts where
  started := hstarted
  members := hmembers
  passed := hpassed
  runs := by
    intro j hj
    obtain ⟨next, hnext⟩ := runs_iff.mp hj
    exact ⟨_, expected_next hnext i, .inl (next_le_fedBy hs hnow hnext)⟩
  crashed := fun _ _ count _ => lapses_of_early hs (by omega) hdue count

variable {i : Fin n} {due : ℕ} {counts : EndpointId → Option ℕ}

/-- A step in which the counts stay as they are. -/
theorem Watches.mono (h : Watches endpoint stable late delay s i due counts)
    (hnow : s.now ≤ s'.now) (hruns : ∀ j, s'.Runs j ↔ s.Runs j)
    (hexpected : ∀ j time, s.Runs j → Expected stable late delay s j i time →
      Expected stable late delay s' j i time) :
    Watches endpoint stable late delay s' i due counts where
  started := h.started
  members := h.members
  passed := h.passed
  runs := by
    intro j hj
    rw [hruns] at hj
    obtain ⟨time, htime, hfed⟩ := h.runs j hj
    refine ⟨time, hexpected j time hj htime, hfed.imp_right ?_⟩
    rintro ⟨count, hcount, hfed⟩
    exact ⟨count, hcount, hfed.advance hnow⟩
  crashed := by
    intro j hj
    rw [hruns] at hj
    exact h.crashed j hj

/-- The callback of the node itself, in a state in which it has just run. -/
theorem Watches.tick (h : Watches endpoint stable late delay s i due counts)
    (hs : Punctual stable late delay s) (hset : s.due i = some due) (hdue : due ≤ s.now)
    (hnow : s'.now = s.now) (hruns : ∀ j, s'.Runs j ↔ s.Runs j)
    (hexpected : ∀ j time, Expected stable late delay s j i time →
      Expected stable late delay s' j i time) :
    Watches endpoint stable late delay s' i (s.now + HEARTBEAT_SEND_PERIOD)
      (countsAfter counts .incrementCounts) where
  started := Nat.le_add_left _ _
  members := by
    intro endpointId count hcount
    obtain ⟨count', hcount', -⟩ := Option.map_eq_some_iff.mp hcount
    exact h.members endpointId count' hcount'
  passed := by
    intro endpointId count hcount
    obtain ⟨count', hcount', rfl⟩ := Option.map_eq_some_iff.mp hcount
    have hle := h.passed endpointId count' hcount'
    rw [Nat.succ_mul]
    omega
  runs := by
    intro j hj
    rw [hruns] at hj
    obtain ⟨time, htime, hfed⟩ := h.runs j hj
    refine ⟨time, hexpected j time htime, hfed.imp_right ?_⟩
    rintro ⟨count, hcount, hfed⟩
    rw [hnow]
    exact ⟨count + 1, by simp [countsAfter, countAfter, hcount],
      hfed.tick hdue (htime.now_le hs)⟩
  crashed := by
    intro j hj count hcount
    rw [hruns] at hj
    obtain ⟨count', hcount', rfl⟩ := Option.map_eq_some_iff.mp hcount
    exact (h.crashed j hj count' hcount').tick (hs.timers i due hset)

/-- A heartbeat arrives at the node. -/
theorem Watches.receive (h : Watches endpoint stable late delay s i due counts)
    (hs : Punctual stable late delay s) (hset : s.due i = some due)
    (hinj : Function.Injective endpoint) (hdelay : late + delay < 2 * HEARTBEAT_SEND_PERIOD)
    {packet : Packet n} (hpacket : packet ∈ s.network)
    (hnow : s'.now = s.now) (hdue : s'.due = s.due)
    (hexpected : ∀ j time, j ≠ packet.src → Expected stable late delay s j i time →
      Expected stable late delay s' j i time) :
    Watches endpoint stable late delay s' i due
      (countsAfter counts (.handleHeartbeat (endpoint packet.src))) := by
  have hnew : countsAfter counts (.handleHeartbeat (endpoint packet.src))
      (endpoint packet.src) = some 0 := by
    simp [countsAfter, countAfter]
  have hold : ∀ {endpointId}, endpointId ≠ endpoint packet.src →
      countsAfter counts (.handleHeartbeat (endpoint packet.src)) endpointId =
        counts endpointId := by
    intro endpointId hne
    simp [countsAfter, countAfter, hne.symm]
  refine ⟨h.started, ?_, ?_, ?_, ?_⟩
  · intro endpointId count hcount
    by_cases he : endpointId = endpoint packet.src
    · exact ⟨packet.src, he⟩
    · rw [hold he] at hcount
      exact h.members endpointId count hcount
  · intro endpointId count hcount
    by_cases he : endpointId = endpoint packet.src
    · rw [he, hnew] at hcount
      cases hcount
      simpa using h.started
    · rw [hold he] at hcount
      exact h.passed endpointId count hcount
  · intro j hj
    by_cases hsrc : j = packet.src
    · subst hsrc
      obtain ⟨next, hnext⟩ := runs_iff.mp hj
      refine ⟨_, expected_next hnext i, ?_⟩
      rw [hdue] at hnext
      rcases Nat.le_total s.now stable with hearly | hlate
      · exact .inl (next_le_fedBy hs hearly hnext)
      · have hnextset := hs.set _ _ hnext
        refine .inr ⟨0, hnew, fed_zero (by decide) ?_⟩
        rw [hnow]
        simp only [HEARTBEAT_SEND_PERIOD, HEARTBEAT_FAILURE_COUNT] at *
        simp
        omega
    · rw [runs_congr hdue] at hj
      obtain ⟨time, htime, hfed⟩ := h.runs j hj
      have hne : endpoint j ≠ endpoint packet.src := fun heq => hsrc (hinj heq)
      rw [hold hne, hnow]
      exact ⟨time, hexpected j time hsrc htime, hfed⟩
  · intro j hj count hcount
    rw [runs_congr hdue] at hj
    by_cases hsrc : j = packet.src
    · subst hsrc
      have hsent := hs.crashed packet hpacket hj
      have harrives := hs.packets packet hpacket
      exact lapses_of_early hs (by omega) hset count
    · have hne : endpoint j ≠ endpoint packet.src := fun heq => hsrc (hinj heq)
      rw [hold hne] at hcount
      exact h.crashed j hj count hcount

/-! ## Runs -/

/-- The counts of a node fit into their type until the end of time, after 136 years. -/
def endOfTime : ℕ := 2 ^ 32 * HEARTBEAT_SEND_PERIOD

/-- Every node that runs has counts behind its tracker. -/
def Watched (endpoint : Fin n → EndpointId) (stable late delay : ℕ) (s : State n) : Prop :=
  s.now < endOfTime → ∀ i, ∀ node ∈ s.nodes i, ∃ counts,
    Tracks counts node.heartbeatTracker ∧
      Watches endpoint stable late delay s i node.due counts

theorem due_of_nodes {i : Fin n} {node : Node} (h : s.nodes i = some node) :
    s.due i = some node.due := by
  simp [State.due, h]

/-- Another node has been set, or this one. -/
theorem nodes_setNode {i j : Fin n} {node : Option Node} {node' : Node}
    (h : node' ∈ (s.setNode i node).nodes j) : j = i ∧ node = some node' ∨
      j ≠ i ∧ node' ∈ s.nodes j := by
  by_cases hj : j = i
  · subst hj
    exact .inl ⟨rfl, by simpa [State.setNode] using h⟩
  · exact .inr ⟨hj, by simpa [State.setNode, hj] using h⟩

theorem Watched.advance (h : Watched endpoint stable late delay s) (duration : ℕ) :
    Watched endpoint stable late delay { s with now := s.now + duration } := by
  intro hend i node hnode
  obtain ⟨counts, htracks, hwatches⟩ := h (lt_of_le_of_lt (Nat.le_add_right _ _) hend) i node hnode
  exact ⟨counts, htracks, hwatches.mono (Nat.le_add_right _ _) (fun _ => Iff.rfl)
    fun _ _ _ hexpected => hexpected⟩

theorem Watched.change (h : Watched endpoint stable late delay s) {i : Fin n}
    {node : Option Node} (hs' : Punctual stable late delay (s.setNode i node))
    (hnow : s.now ≤ stable) (hnode : ∀ node' ∈ node, node' = Node.new s.now) :
    Watched endpoint stable late delay (s.setNode i node) := by
  intro hend j node' hnode'
  have hdue := due_of_nodes hnode'
  rcases nodes_setNode hnode' with ⟨rfl, hnew⟩ | ⟨-, hold⟩
  · rw [hnode node' hnew] at hdue ⊢
    refine ⟨periods [], tracks_of_calls ⟨?_, by decide⟩, ?_⟩
    · exact fun _ hmem => absurd hmem List.not_mem_nil
    · exact watches_of_early hs' hnow hdue (Nat.le_add_left _ _)
        (fun _ _ hcount => nomatch hcount) (fun _ _ hcount => nomatch hcount)
  · obtain ⟨counts, htracks, hwatches⟩ := h hend j node' hold
    exact ⟨counts, htracks, watches_of_early hs' hnow hdue hwatches.started hwatches.members
      hwatches.passed⟩

theorem Watched.heartbeat (h : Watched endpoint stable late delay s)
    (hs : Punctual stable late delay s) {i : Fin n} {node : Node}
    (hnode : s.nodes i = some node) (hdue : node.due ≤ s.now) :
    Watched endpoint stable late delay
      { s.setNode i (some (node.heartbeat s.now)) with
        network := s.network ++ broadcast s.now i } := by
  intro hend j node' hnode'
  have hruns := runs_setNode (runs_of_nodes hnode) (node.heartbeat s.now)
  rcases nodes_setNode hnode' with ⟨rfl, hnew⟩ | ⟨-, hold⟩
  · cases hnew
    obtain ⟨counts, htracks, hwatches⟩ := h hend j node hnode
    refine ⟨_, htracks.incrementCounts ?_, hwatches.tick hs (due_of_nodes hnode) hdue rfl hruns
      fun _ _ hexpected => hexpected.heartbeat hs j⟩
    intro endpointId count hcount
    have hpassed := hwatches.passed endpointId count hcount
    have hlt : (count + 1) * HEARTBEAT_SEND_PERIOD < 2 ^ 32 * HEARTBEAT_SEND_PERIOD :=
      (hpassed.trans hdue).trans_lt hend
    exact Nat.lt_of_mul_lt_mul_right hlt
  · obtain ⟨counts, htracks, hwatches⟩ := h hend j node' hold
    exact ⟨counts, htracks, hwatches.mono le_rfl hruns
      fun _ _ _ hexpected => hexpected.heartbeat hs i⟩

theorem Watched.deliver (h : Watched endpoint stable late delay s)
    (hs : Punctual stable late delay s) (hports : ∀ j, (endpoint j).port = 0)
    (hinj : Function.Injective endpoint) (hdelay : late + delay < 2 * HEARTBEAT_SEND_PERIOD)
    {position : ℕ} {packet : Packet n} {node : Node}
    (hpacket : s.network[position]? = some packet) (hnode : s.nodes packet.dst = some node) :
    Watched endpoint stable late delay
      (State.setNode { s with network := s.network.eraseIdx position } packet.dst
        (some { node with
          heartbeatTracker := node.heartbeatTracker.handleHeartbeat (endpoint packet.src) })) := by
  intro hend j node' hnode'
  have hdue := due_setTracker (s := { s with network := s.network.eraseIdx position }) hnode
    (node.heartbeatTracker.handleHeartbeat (endpoint packet.src))
  rcases nodes_setNode hnode' with ⟨rfl, hnew⟩ | ⟨hne, hold⟩
  · cases hnew
    obtain ⟨counts, htracks, hwatches⟩ := h hend packet.dst node hnode
    refine ⟨_, htracks.handleHeartbeat (hports packet.src), hwatches.receive hs
      (due_of_nodes hnode) hinj hdelay (List.mem_of_getElem? hpacket) rfl hdue ?_⟩
    intro k time hk hexpected
    refine hexpected.of_subset (congrFun hdue k) fun packet' hmem hsrc _ => ?_
    refine mem_eraseIdx_of_ne hpacket hmem ?_
    rintro rfl
    exact hk hsrc.symm
  · obtain ⟨counts, htracks, hwatches⟩ := h hend j node' hold
    refine ⟨counts, htracks, hwatches.mono le_rfl (fun _ => runs_congr hdue) ?_⟩
    intro k time _ hexpected
    refine hexpected.of_subset (congrFun hdue k) fun packet' hmem _ hdst => ?_
    refine mem_eraseIdx_of_ne hpacket hmem ?_
    rintro rfl
    exact hne hdst.symm

theorem Watched.lose (h : Watched endpoint stable late delay s)
    {position : ℕ} {packet : Packet n} (hpacket : s.network[position]? = some packet)
    (hs' : Punctual stable late delay { s with network := s.network.eraseIdx position })
    (hlost : s.now < stable ∨ ¬ s.Runs packet.src ∨ ¬ s.Runs packet.dst) :
    Watched endpoint stable late delay { s with network := s.network.eraseIdx position } := by
  intro hend j node hnode
  obtain ⟨counts, htracks, hwatches⟩ := h hend j node hnode
  refine ⟨counts, htracks, ?_⟩
  rcases hlost with hearly | hcrashed
  · exact watches_of_early hs' hearly.le (due_of_nodes hnode) hwatches.started hwatches.members
      hwatches.passed
  · refine hwatches.mono le_rfl (fun _ => Iff.rfl) ?_
    intro k time hk hexpected
    refine hexpected.of_subset rfl fun packet' hmem hsrc hdst => ?_
    refine mem_eraseIdx_of_ne hpacket hmem ?_
    rintro rfl
    rcases hcrashed with hnot | hnot
    · exact hnot (hsrc ▸ hk)
    · exact hnot (hdst ▸ runs_of_nodes hnode)

theorem Watched.answer (h : Watched endpoint stable late delay s) {i : Fin n} {node : Node}
    (hnode : s.nodes i = some node) :
    Watched endpoint stable late delay (s.setNode i (some { node with
      heartbeatTracker := node.heartbeatTracker.aliveEndpoints.2 })) := by
  intro hend j node' hnode'
  have hdue := due_setTracker hnode node.heartbeatTracker.aliveEndpoints.2
  have hmono : ∀ {due counts}, Watches endpoint stable late delay s j due counts →
      Watches endpoint stable late delay (s.setNode i (some { node with
        heartbeatTracker := node.heartbeatTracker.aliveEndpoints.2 })) j due counts :=
    fun hwatches => hwatches.mono le_rfl (fun _ => runs_congr hdue) fun _ _ _ hexpected =>
      hexpected.of_subset (congrFun hdue _) fun _ hmem _ _ => hmem
  rcases nodes_setNode hnode' with ⟨rfl, hnew⟩ | ⟨-, hold⟩
  · cases hnew
    obtain ⟨counts, htracks, hwatches⟩ := h hend j node hnode
    exact ⟨counts, htracks.aliveEndpoints, hmono hwatches⟩
  · obtain ⟨counts, htracks, hwatches⟩ := h hend j node' hold
    exact ⟨counts, htracks, hmono hwatches⟩

theorem Watched.step (h : Watched endpoint stable late delay s)
    (hs : Punctual stable late delay s) (hports : ∀ j, (endpoint j).port = 0)
    (hinj : Function.Injective endpoint) (hdelay : late + delay < 2 * HEARTBEAT_SEND_PERIOD)
    (hstep : Step endpoint stable late delay s events s') :
    Watched endpoint stable late delay s' := by
  have hs' := hs.step hstep
  cases hstep with
  | advance duration hpackets hnodes => exact h.advance duration
  | change i node hnow hnode => exact h.change hs' hnow.le hnode
  | heartbeat i node hnode hdue => exact h.heartbeat hs hnode hdue
  | deliver position packet node hpacket hnode =>
      exact h.deliver hs hports hinj hdelay hpacket hnode
  | lose position packet hpacket hlost => exact h.lose hpacket hs' hlost
  | answer i node event hnode hevent => exact h.answer hnode

end UniversalDB.FailureDetector
