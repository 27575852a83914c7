import UniversalDB.Model.SlaveGroup
import UniversalDB.Verification.FailureDetector.Watching

/-! # Alive endpoints and leaders in a stable network -/

namespace UniversalDB.FailureDetector

open HeartbeatTracker

variable {n : ℕ} {endpoint : Fin n → EndpointId} {stable late delay : ℕ} {s s' : State n}
  {events trace : List (Event n)}

/-! ## Answers -/

/-- What the alive endpoints that a node collects at some time have to do with the nodes that
run. -/
structure Alive (endpoint : Fin n → EndpointId) (stable late delay : ℕ) (s : State n)
    (i : Fin n) (time : ℕ) (endpoints : List EndpointId) : Prop where
  collects : stable < time → s.Runs i
  ascending : endpoints.Pairwise fun e e' => e.ipString < e'.ipString
  fed : fedBy stable late delay < time → ∀ j, s.Runs j → endpoint j ∈ endpoints
  lapsed : lapsedBy stable late delay < time →
    ∀ endpointId ∈ endpoints, ∃ j, s.Runs j ∧ endpointId = endpoint j

theorem alive_of_watches {i : Fin n} {node : Node} (hs : Punctual stable late delay s)
    (hnode : s.nodes i = some node) {counts : EndpointId → Option ℕ}
    (htracks : Tracks counts node.heartbeatTracker)
    (hwatches : Watches endpoint stable late delay s i node.due counts) :
    Alive endpoint stable late delay s i s.now node.heartbeatTracker.aliveEndpoints.1 where
  collects := fun _ => runs_of_nodes hnode
  ascending := aliveEndpoints_ascending _
  fed := by
    intro htime j hj
    rw [htracks.mem_aliveEndpoints]
    obtain ⟨time, hexpected, hearly | ⟨count, hcount, hfed⟩⟩ := hwatches.runs j hj
    · have hle := hexpected.now_le hs
      omega
    · exact ⟨count, hcount, hfed.count_lt⟩
  lapsed := by
    intro htime endpointId hmem
    rw [htracks.mem_aliveEndpoints] at hmem
    obtain ⟨count, hcount, hlt⟩ := hmem
    obtain ⟨j, rfl⟩ := hwatches.members endpointId count hcount
    refine ⟨j, ?_, rfl⟩
    by_contra hnot
    have hle := (hwatches.crashed j hnot count hcount).limit_le
      (hs.timers i node.due (due_of_nodes hnode)) htime
    omega

theorem Alive.congr {i : Fin n} {time : ℕ} {endpoints : List EndpointId}
    (h : Alive endpoint stable late delay s i time endpoints) (hruns : ∀ j, s'.Runs j ↔ s.Runs j) :
    Alive endpoint stable late delay s' i time endpoints where
  collects := fun htime => (hruns i).mpr (h.collects htime)
  ascending := h.ascending
  fed := fun htime j hj => h.fed htime j ((hruns j).mp hj)
  lapsed := by
    intro htime endpointId hmem
    obtain ⟨j, hj, heq⟩ := h.lapsed htime endpointId hmem
    exact ⟨j, (hruns j).mpr hj, heq⟩

/-- Nothing is asked before the network is stable. -/
theorem Alive.early {i : Fin n} {time : ℕ} {endpoints : List EndpointId}
    (h : Alive endpoint stable late delay s i time endpoints) (htime : time ≤ stable) :
    Alive endpoint stable late delay s' i time endpoints where
  collects := fun hlt => absurd hlt htime.not_gt
  ascending := h.ascending
  fed := by
    intro hlt
    unfold fedBy at hlt
    omega
  lapsed := by
    intro hlt
    unfold lapsedBy at hlt
    omega

/-- Both queries of a tracker answer with the alive endpoints. -/
inductive Shows (i : Fin n) (time : ℕ) (endpoints : List EndpointId) : Event n → Prop where
  | aliveEndpoints : Shows i time endpoints (.aliveEndpoints i time endpoints)
  | leaderEndpointId : Shows i time endpoints (.leaderEndpointId i time endpoints.head?)

/-- An event of a run that has led to a state. -/
def Sound (endpoint : Fin n → EndpointId) (stable late delay : ℕ) (s : State n)
    (event : Event n) : Prop :=
  ∃ i time endpoints, Shows i time endpoints event ∧ time ≤ s.now ∧
    (time < endOfTime → Alive endpoint stable late delay s i time endpoints)

/-- The nodes that run stay the same once the network is stable. -/
theorem runs_of_step (hnow : stable ≤ s.now)
    (hstep : Step endpoint stable late delay s events s') (j : Fin n) : s'.Runs j ↔ s.Runs j := by
  cases hstep with
  | advance duration hpackets hnodes => exact Iff.rfl
  | change i node hlt hnode => omega
  | heartbeat i node hnode hdue => exact runs_setNode (runs_of_nodes hnode) _ j
  | deliver position packet node hpacket hnode =>
      exact runs_setNode (s := { s with network := s.network.eraseIdx position })
        (runs_of_nodes hnode) _ j
  | lose position packet hpacket hlost => exact Iff.rfl
  | answer i node event hnode hevent => exact runs_setNode (runs_of_nodes hnode) _ j

theorem now_of_step (hstep : Step endpoint stable late delay s events s') : s.now ≤ s'.now := by
  cases hstep with
  | advance duration hpackets hnodes => exact Nat.le_add_right _ _
  | change i node hlt hnode => exact le_rfl
  | heartbeat i node hnode hdue => exact le_rfl
  | deliver position packet node hpacket hnode => exact le_rfl
  | lose position packet hpacket hlost => exact le_rfl
  | answer i node event hnode hevent => exact le_rfl

theorem Sound.step {event : Event n} (h : Sound endpoint stable late delay s event)
    (hstep : Step endpoint stable late delay s events s') :
    Sound endpoint stable late delay s' event := by
  obtain ⟨i, time, endpoints, hshows, hle, halive⟩ := h
  refine ⟨i, time, endpoints, hshows, hle.trans (now_of_step hstep), fun htime => ?_⟩
  rcases Nat.le_total time stable with hearly | hlate
  · exact (halive htime).early hearly
  · exact (halive htime).congr (runs_of_step (hlate.trans hle) hstep)

/-- The events of a step. -/
theorem sound_of_step (hs : Punctual stable late delay s)
    (hwatched : Watched endpoint stable late delay s)
    (hstep : Step endpoint stable late delay s events s') :
    ∀ event ∈ events, Sound endpoint stable late delay s event := by
  cases hstep with
  | answer i node event hnode hevent =>
      intro event' hmem
      obtain rfl := List.mem_singleton.mp hmem
      refine ⟨i, s.now, node.heartbeatTracker.aliveEndpoints.1, ?_, le_rfl, ?_⟩
      · rcases hevent with rfl | rfl
        · exact .aliveEndpoints
        · exact .leaderEndpointId
      · intro hend
        obtain ⟨counts, htracks, hwatches⟩ := hwatched hend i node hnode
        exact alive_of_watches hs hnode htracks hwatches
  | _ => exact fun event hmem => absurd hmem List.not_mem_nil

theorem punctual_init : Punctual stable late delay (machine endpoint).init where
  sent := fun _ hmem => absurd hmem List.not_mem_nil
  packets := fun _ hmem => absurd hmem List.not_mem_nil
  set := fun _ _ hdue => nomatch hdue
  timers := fun _ _ hdue => nomatch hdue
  crashed := fun _ hmem => absurd hmem List.not_mem_nil

theorem watched_init : Watched endpoint stable late delay (machine endpoint).init := by
  intro _ i node hnode
  cases hnode

theorem sound_of_run (hports : ∀ j, (endpoint j).port = 0) (hinj : Function.Injective endpoint)
    (hdelay : late + delay < 2 * HEARTBEAT_SEND_PERIOD)
    (h : ((machine endpoint).guarded (Timely stable late delay)).Run trace s) :
    ∀ event ∈ trace, Sound endpoint stable late delay s event := by
  have hinv := invariant_of_run (I := fun trace s => Punctual stable late delay s ∧
    Watched endpoint stable late delay s ∧
      ∀ event ∈ trace, Sound endpoint stable late delay s event)
    ⟨punctual_init, watched_init, fun _ hmem => absurd hmem List.not_mem_nil⟩ ?_ h
  · exact hinv.2.2
  · rintro trace s events s' ⟨hs, hwatched, hsound⟩ hstep
    refine ⟨hs.step hstep, hwatched.step hs hports hinj hdelay hstep, ?_⟩
    intro event hmem
    rcases List.mem_append.mp hmem with hold | hnew
    · exact (hsound event hold).step hstep
    · exact (sound_of_step hs hwatched hstep event hnew).step hstep

/-! ## Main results -/

/-- Once the network is stable for long enough, no node suspects a node that runs, and a
little later every node suspects all nodes that have crashed. -/
theorem alive_endpoints_settle (hports : ∀ j, (endpoint j).port = 0)
    (hinj : Function.Injective endpoint) (hdelay : late + delay < 2 * HEARTBEAT_SEND_PERIOD)
    (h : ((machine endpoint).guarded (Timely stable late delay)).Run trace s)
    {i : Fin n} {time : ℕ} {endpoints : List EndpointId}
    (hevent : .aliveEndpoints i time endpoints ∈ trace) (hend : time < endOfTime) :
    (fedBy stable late delay < time → ∀ j, s.Runs j → endpoint j ∈ endpoints) ∧
    (lapsedBy stable late delay < time →
      ∀ endpointId ∈ endpoints, ∃ j, s.Runs j ∧ endpointId = endpoint j) := by
  obtain ⟨_, _, _, hshows, -, halive⟩ := sound_of_run hports hinj hdelay h _ hevent
  cases hshows
  exact ⟨(halive hend).fed, (halive hend).lapsed⟩

/-! Node `p` crashes after its first heartbeat, and the other two ask for the leader and for the
alive endpoints four periods later. -/

def round (senders : List (Fin n)) : List (Action n) :=
  .advance 1000 :: senders.map .heartbeat ++ List.replicate (senders.length * n) (.deliver 0)

def failover (p q r : Fin n) : List (Action n) :=
  [.start p, .start q, .start r] ++ round [p, q, r] ++ [.crash p] ++
    (List.replicate 4 (round [q, r])).flatten ++
    [.advance 1000, .leaderEndpointId q, .leaderEndpointId r, .aliveEndpoints q]

theorem configEndpoint_injective : Function.Injective (SlaveGroup.configEndpoint (n := 3)) := by
  have hinj : ∀ i j : Fin 3,
      SlaveGroup.configEndpoint i = SlaveGroup.configEndpoint j → i = j := by
    decide +kernel
  exact fun i j => hinj i j

theorem alive_endpoints_settle_sample :
    ∃ trace s, ((machine (SlaveGroup.configEndpoint (n := 3))).guarded
        (Timely 1001 0 0)).Run trace s ∧
      .aliveEndpoints 1 6000 [⟨"172.19.0.11", 0⟩, ⟨"172.19.0.12", 0⟩] ∈ trace ∧
      ∀ endpointId ∈ [⟨"172.19.0.11", 0⟩, (⟨"172.19.0.12", 0⟩ : EndpointId)],
        ∃ j, s.Runs j ∧ endpointId = SlaveGroup.configEndpoint j := by
  obtain ⟨trace, s, hrun, hevent⟩ :=
    ((machine (SlaveGroup.configEndpoint (n := 3))).restrict (Timely 1001 0 0)).exists_run
      (failover 0 1 2) (p := fun r =>
        .aliveEndpoints 1 6000 [⟨"172.19.0.11", 0⟩, ⟨"172.19.0.12", 0⟩] ∈ r.1)
      (by decide +kernel)
  have htimely := Machine.guarded_of_restrict hrun
  have hsettled := alive_endpoints_settle (fun _ => rfl) configEndpoint_injective (by decide)
    htimely hevent (by decide)
  exact ⟨trace, s, htimely, hevent, hsettled.2 (by decide)⟩

theorem fedBy_le_lapsedBy : fedBy stable late delay ≤ lapsedBy stable late delay := by
  simp only [fedBy, lapsedBy, HEARTBEAT_FAILURE_COUNT, UInt32.reduceToNat]
  omega

/-- Once the network is stable for long enough, all nodes have the same leader, which is the
node with the smallest address of those that run. -/
theorem leaders_agree (hports : ∀ j, (endpoint j).port = 0)
    (hinj : Function.Injective endpoint) (hdelay : late + delay < 2 * HEARTBEAT_SEND_PERIOD)
    (h : ((machine endpoint).guarded (Timely stable late delay)).Run trace s)
    {i : Fin n} {time : ℕ} {leader : Option EndpointId}
    (hevent : .leaderEndpointId i time leader ∈ trace)
    (htime : lapsedBy stable late delay < time) (hend : time < endOfTime) :
    ∃ j, s.Runs j ∧ leader = some (endpoint j) ∧
      ∀ k, s.Runs k → (endpoint j).address ≤ (endpoint k).address := by
  obtain ⟨_, _, endpoints, hshows, -, hsound⟩ := sound_of_run hports hinj hdelay h _ hevent
  cases hshows
  have halive := hsound hend
  have hstable : stable < time := by
    unfold lapsedBy at htime
    omega
  have hfed := halive.fed (fedBy_le_lapsedBy.trans_lt htime)
  have hascending := halive.ascending
  cases endpoints with
  | nil => exact absurd (hfed i (halive.collects hstable)) List.not_mem_nil
  | cons first rest =>
      obtain ⟨j, hj, rfl⟩ := halive.lapsed htime first List.mem_cons_self
      refine ⟨j, hj, rfl, ?_⟩
      intro k hk
      rcases List.mem_cons.mp (hfed k hk) with heq | hmem
      · rw [heq]
      · exact ((List.pairwise_cons.mp hascending).1 _ hmem).le

theorem leaders_agree_sample :
    ∃ trace s, ((machine (SlaveGroup.configEndpoint (n := 3))).guarded
        (Timely 1001 0 0)).Run trace s ∧
      .leaderEndpointId 2 6000 (some ⟨"172.19.0.11", 0⟩) ∈ trace ∧
      ∃ j, s.Runs j ∧ some ⟨"172.19.0.11", 0⟩ = some (SlaveGroup.configEndpoint j) ∧
        ∀ k, s.Runs k →
          (SlaveGroup.configEndpoint j).address ≤ (SlaveGroup.configEndpoint k).address := by
  obtain ⟨trace, s, hrun, hevent⟩ :=
    ((machine (SlaveGroup.configEndpoint (n := 3))).restrict (Timely 1001 0 0)).exists_run
      (failover 0 1 2) (p := fun r =>
        .leaderEndpointId 2 6000 (some ⟨"172.19.0.11", 0⟩) ∈ r.1)
      (by decide +kernel)
  have htimely := Machine.guarded_of_restrict hrun
  exact ⟨trace, s, htimely, hevent,
    leaders_agree (fun _ => rfl) configEndpoint_injective (by decide) htimely hevent (by decide)
      (by decide)⟩

end UniversalDB.FailureDetector
