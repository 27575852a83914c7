import Mathlib.Algebra.BigOperators.Fin
import Mathlib.Algebra.Order.Group.Multiset
import UniversalDB.Model.SlaveGroup

/-! # What belongs to one log -/

namespace UniversalDB.SlaveGroup

variable {n : ℕ}

/-! ## Messages -/

def contentPayload : TabletMessage.Content → Option Group.Payload
  | .notSet => none
  | .paxosMessage message => some (.paxosMessage message)
  | .syncRequest request => some (.syncRequest request)
  | .syncResponse response => some (.syncResponse response)

/-- What a message carries for a log. -/
def payloadFor : LogId → MessageWrapper → Option Group.Payload
  | .slave, .slaveMessage (.paxosMessage message) => some (.paxosMessage message)
  | .slave, .slaveMessage (.syncRequest request) => some (.syncRequest request)
  | .slave, .slaveMessage (.syncResponse response) => some (.syncResponse response)
  | .tablet tabletId, .tabletMessage message =>
      if Server.convert message.range = tabletId then contentPayload message.content else none
  | _, _ => none

def packetFor (log : LogId) (envelope : Envelope n) : Option (Group.Packet n) :=
  (payloadFor log envelope.message).map fun payload => ⟨envelope.src, envelope.dst, payload⟩

/-- A wrapped message is unwrapped for its own log and for no other. -/
theorem payloadFor_wrap (log log' : LogId) (payload : Group.Payload) :
    payloadFor log (wrap log' payload) = if log = log' then some payload else none := by
  cases log with
  | slave => cases log' <;> cases payload <;> rfl
  | tablet tabletId =>
      cases log' with
      | slave => cases payload <;> rfl
      | tablet tabletId' =>
          by_cases ht : tabletId' = tabletId
          · subst tabletId'
            cases payload <;> simp [wrap, payloadFor, contentPayload]
          · have ht' : ¬ tabletId = tabletId' := fun heq => ht heq.symm
            cases payload <;> simp [wrap, payloadFor, ht, ht']

theorem packetFor_wrapPacket (log log' : LogId) (packet : Group.Packet n) :
    packetFor log (wrapPacket log' packet) = if log = log' then some packet else none := by
  simp only [packetFor, wrapPacket, payloadFor_wrap]
  split <;> rfl

/-! ## Packets -/

/-- The packets of a log among the envelopes on the network. -/
def flying (log : LogId) (network : List (Envelope n)) : Multiset (Group.Packet n) :=
  ↑(network.filterMap (packetFor log))

/-- The packets of a log that are queued at a slave. -/
def queuedAt (log : LogId) (i : Fin n) (slave : Slave n) : Multiset (Group.Packet n) :=
  match log with
  | .slave => 0
  | .tablet tabletId =>
      match slave.tpMap tabletId with
      | none => 0
      | some tp => ↑(tp.queue.filterMap fun x =>
          packetFor (.tablet tabletId) ⟨x.1, i, .tabletMessage x.2⟩)

def packetsOf (log : LogId) (s : State n) : Multiset (Group.Packet n) :=
  flying log s.network + ∑ i, queuedAt log i (s.slaves i)

/-- The node of a log; a participant that does not exist yet has done nothing. -/
def nodeAt (log : LogId) (slave : Slave n) : Group.Node n :=
  (slave.log log).getD (Group.Node.new n)

@[simp] theorem flying_append (log : LogId) (network network' : List (Envelope n)) :
    flying log (network ++ network') = flying log network + flying log network' := by
  simp [flying]

theorem flying_wrapPacket (log log' : LogId) (packets : List (Group.Packet n)) :
    flying log (packets.map (wrapPacket log')) = if log = log' then ↑packets else 0 := by
  rw [flying, List.filterMap_map]
  have hview : packetFor log ∘ wrapPacket log' =
      fun packet : Group.Packet n => if log = log' then some packet else none := by
    funext packet
    exact packetFor_wrapPacket log log' packet
  rw [hview]
  by_cases hlog : log = log'
  · simp [hlog]
  · simp [hlog]

/-- What an envelope carries for a log. -/
def carried (log : LogId) (envelope : Envelope n) : Multiset (Group.Packet n) :=
  ↑(packetFor log envelope).toList

theorem carried_of_none {log : LogId} {message : MessageWrapper}
    (h : payloadFor log message = none) (src dst : Fin n) :
    carried log ⟨src, dst, message⟩ = 0 := by
  simp [carried, packetFor, h]

theorem carried_of_some {log : LogId} {message : MessageWrapper} {payload : Group.Payload}
    (h : payloadFor log message = some payload) (src dst : Fin n) :
    carried log ⟨src, dst, message⟩ = {⟨src, dst, payload⟩} := by
  simp [carried, packetFor, h]

theorem flying_eraseIdx (log : LogId) {network : List (Envelope n)} {position : ℕ}
    {envelope : Envelope n} (h : network[position]? = some envelope) :
    flying log network = carried log envelope + flying log (network.eraseIdx position) := by
  obtain ⟨hlt, rfl⟩ := List.getElem?_eq_some_iff.mp h
  have hperm : (network[position] :: network.eraseIdx position).Perm network :=
    List.getElem_cons_eraseIdx_perm hlt
  have hview := (hperm.filterMap (packetFor log)).symm
  rw [flying, Multiset.coe_eq_coe.mpr hview, List.filterMap_cons, carried, flying,
    Multiset.coe_add]
  cases packetFor log network[position] <;> rfl

theorem sum_queuedAt (log : LogId) (slaves : Fin n → Slave n) (i : Fin n) :
    ∑ j, queuedAt log j (slaves j) =
      queuedAt log i (slaves i) + ∑ j ∈ Finset.univ.erase i, queuedAt log j (slaves j) :=
  (Finset.add_sum_erase _ (fun j => queuedAt log j (slaves j)) (Finset.mem_univ i)).symm

theorem sum_queuedAt_update (log : LogId) (slaves : Fin n → Slave n) (i : Fin n)
    (slave : Slave n) :
    ∑ j, queuedAt log j (Function.update slaves i slave j) =
      queuedAt log i slave + ∑ j ∈ Finset.univ.erase i, queuedAt log j (slaves j) := by
  rw [sum_queuedAt log _ i, Function.update_self]
  congr 1
  apply Finset.sum_congr rfl
  intro j hj
  rw [Function.update_of_ne (Finset.ne_of_mem_erase hj)]

/-- What a change of the network and of one slave takes from a log. -/
theorem packetsOf_update {log : LogId} {s : State n} {i : Fin n} {slave : Slave n}
    {network : List (Envelope n)} {taken : Multiset (Group.Packet n)}
    (h : flying log s.network + queuedAt log i (s.slaves i) =
      taken + (flying log network + queuedAt log i slave)) :
    packetsOf log s = taken + packetsOf log ⟨Function.update s.slaves i slave, network⟩ := by
  rw [packetsOf, packetsOf, sum_queuedAt log s.slaves i, sum_queuedAt_update, ← add_assoc, h,
    add_assoc, add_assoc]

/-! ## Slaves -/

section Slave

variable {slave : Slave n} {log : LogId} {node : Group.Node n}

theorem log_setLog (hnode : (slave.log log).isSome) (log' : LogId) :
    (slave.setLog node log).log log' = if log' = log then some node else slave.log log' := by
  cases log with
  | slave => cases log' <;> rfl
  | tablet tabletId =>
      cases htp : slave.tpMap tabletId with
      | none => simp [Slave.log, htp] at hnode
      | some tp =>
          cases log' with
          | slave => simp [Slave.setLog, Slave.log, htp]
          | tablet tabletId' =>
              by_cases ht : tabletId' = tabletId
              · simp [Slave.setLog, Slave.log, htp, ht]
              · simp [Slave.setLog, Slave.log, htp, ht, KeyMap.assign_of_ne]

theorem queuedAt_setLog (i : Fin n) (log' : LogId) :
    queuedAt log' i (slave.setLog node log) = queuedAt log' i slave := by
  cases log' with
  | slave => rfl
  | tablet tabletId' =>
      cases log with
      | slave => rfl
      | tablet tabletId =>
          cases htp : slave.tpMap tabletId with
          | none => simp [Slave.setLog, htp]
          | some tp =>
              by_cases ht : tabletId' = tabletId
              · simp [queuedAt, Slave.setLog, htp, ht]
              · simp [queuedAt, Slave.setLog, htp, KeyMap.assign_of_ne _ _ ht]

@[simp] theorem exception_setLog : (slave.setLog node log).exception = slave.exception := by
  cases log with
  | slave => rfl
  | tablet tabletId =>
      simp only [Slave.setLog]
      split <;> rfl

/-- The participants that are created have done nothing yet. -/
theorem tpMap_handleKeySpaceChange (slave : Slave n) (ranges : List TabletId)
    (tabletId : TabletId) :
    (slave.handleKeySpaceChange ranges).tpMap tabletId = slave.tpMap tabletId ∨
      slave.tpMap tabletId = none ∧
        (slave.handleKeySpaceChange ranges).tpMap tabletId = some (.new n) := by
  suffices h : ∀ tpMap : KeyMap TabletId (TabletParticipant n),
      let tpMap' := ranges.foldl
        (fun tpMap range => tpMap.insert range (TabletParticipant.new n)) tpMap
      tpMap' tabletId = tpMap tabletId ∨
        tpMap tabletId = none ∧ tpMap' tabletId = some (.new n) from h slave.tpMap
  induction ranges with
  | nil => exact fun _ => .inl rfl
  | cons range ranges ih =>
      intro tpMap
      simp only [List.foldl_cons]
      have hfirst : tpMap.insert range (TabletParticipant.new n) tabletId = tpMap tabletId ∨
          tpMap tabletId = none ∧
            tpMap.insert range (TabletParticipant.new n) tabletId = some (.new n) := by
        by_cases ht : tabletId = range
        · subst tabletId
          cases htp : tpMap range <;> simp [htp]
        · exact .inl (KeyMap.insert_of_ne _ _ ht)
      rcases ih (tpMap.insert range (TabletParticipant.new n)) with h | ⟨hnone, hnew⟩
      · rw [h]
        exact hfirst
      · rcases hfirst with hsame | ⟨-, hsome⟩
        · exact .inr ⟨hsame ▸ hnone, hnew⟩
        · rw [hnone] at hsome
          cases hsome

theorem nodeAt_handleKeySpaceChange (ranges : List TabletId) (log : LogId) :
    nodeAt log (slave.handleKeySpaceChange ranges) = nodeAt log slave := by
  cases log with
  | slave => rfl
  | tablet tabletId =>
      rcases tpMap_handleKeySpaceChange slave ranges tabletId with h | ⟨hnone, hnew⟩
      · simp [nodeAt, Slave.log, h]
      · simp [nodeAt, Slave.log, hnone, hnew, TabletParticipant.new]

theorem queuedAt_handleKeySpaceChange (i : Fin n) (ranges : List TabletId) (log : LogId) :
    queuedAt log i (slave.handleKeySpaceChange ranges) = queuedAt log i slave := by
  cases log with
  | slave => rfl
  | tablet tabletId =>
      rcases tpMap_handleKeySpaceChange slave ranges tabletId with h | ⟨hnone, hnew⟩
      · simp [queuedAt, h]
      · simp [queuedAt, hnone, hnew, TabletParticipant.new]

theorem nodeAt_handleTabletMessage (src : Fin n) (message : TabletMessage) (log : LogId) :
    nodeAt log (slave.handleTabletMessage src message) = nodeAt log slave := by
  cases htp : slave.tpMap (Server.convert message.range) with
  | none => simp [Slave.handleTabletMessage, htp]
  | some tp =>
      cases log with
      | slave => simp [Slave.handleTabletMessage, htp, nodeAt, Slave.log]
      | tablet tabletId =>
          by_cases ht : tabletId = Server.convert message.range
          · simp [Slave.handleTabletMessage, htp, nodeAt, Slave.log, ht]
          · simp [Slave.handleTabletMessage, htp, nodeAt, Slave.log,
              KeyMap.assign_of_ne _ _ ht]

/-- A participant that exists gets the message into its queue. -/
theorem queuedAt_handleTabletMessage {message : TabletMessage} {tp : TabletParticipant n}
    (htp : slave.tpMap (Server.convert message.range) = some tp) (src i : Fin n) (log : LogId) :
    queuedAt log i (slave.handleTabletMessage src message) =
      queuedAt log i slave + carried log ⟨src, i, .tabletMessage message⟩ := by
  cases log with
  | slave =>
      have hnone : payloadFor .slave (.tabletMessage message) = none := rfl
      rw [carried_of_none hnone]
      rfl
  | tablet tabletId =>
      by_cases ht : tabletId = Server.convert message.range
      · subst tabletId
        simp only [queuedAt, Slave.handleTabletMessage, htp, KeyMap.assign_self,
          List.filterMap_append, ← Multiset.coe_add, carried, List.filterMap_cons,
          List.filterMap_nil]
        cases packetFor (.tablet (Server.convert message.range))
          (⟨src, i, .tabletMessage message⟩ : Envelope n) <;> rfl
      · have hnone : payloadFor (.tablet tabletId) (.tabletMessage message) = none := by
          have ht' : ¬ Server.convert message.range = tabletId := fun heq => ht heq.symm
          simp [payloadFor, ht']
        rw [carried_of_none hnone]
        simp [queuedAt, Slave.handleTabletMessage, htp, KeyMap.assign_of_ne _ _ ht]

end Slave

/-! ## Queues

A participant is queued only messages for its own tablet. -/

def Slave.Addressed (slave : Slave n) : Prop :=
  ∀ tabletId tp, slave.tpMap tabletId = some tp →
    ∀ x ∈ tp.queue, Server.convert x.2.range = tabletId

/-- The slave with other messages in the queue of a participant. -/
def Slave.setQueue (slave : Slave n) (tabletId : TabletId) (node : Group.Node n)
    (queue : List (Fin n × TabletMessage)) : Slave n :=
  { slave with tpMap := slave.tpMap.assign tabletId ⟨node, queue⟩ }

section Addressed

variable {slave : Slave n} {tabletId : TabletId} {node : Group.Node n}
  {queue : List (Fin n × TabletMessage)}

theorem Slave.Addressed.setQueue (h : slave.Addressed)
    (hqueue : ∀ x ∈ queue, Server.convert x.2.range = tabletId) :
    (slave.setQueue tabletId node queue).Addressed := by
  intro tabletId' tp htp
  simp only [Slave.setQueue, KeyMap.assign_apply] at htp
  split at htp
  · rename_i ht
    cases htp
    rw [ht]
    exact hqueue
  · exact h tabletId' tp htp

theorem Slave.Addressed.setLog (h : slave.Addressed) (log : LogId) :
    (slave.setLog node log).Addressed := by
  cases log with
  | slave => exact h
  | tablet tabletId =>
      simp only [Slave.setLog]
      split
      · exact h
      · rename_i tp htp
        exact h.setQueue (h tabletId tp htp)

theorem Slave.Addressed.handleTabletMessage (h : slave.Addressed) (src : Fin n)
    (message : TabletMessage) : (slave.handleTabletMessage src message).Addressed := by
  simp only [Slave.handleTabletMessage]
  split
  · exact h
  · rename_i tp htp
    apply h.setQueue
    intro x hx
    rcases List.mem_append.mp hx with hx | hx
    · exact h _ tp htp x hx
    · rw [List.mem_singleton.mp hx]

theorem Slave.Addressed.handleKeySpaceChange (h : slave.Addressed) (ranges : List TabletId) :
    (slave.handleKeySpaceChange ranges).Addressed := by
  intro tabletId tp htp
  rcases tpMap_handleKeySpaceChange slave ranges tabletId with hsame | ⟨-, hnew⟩
  · rw [hsame] at htp
    exact h tabletId tp htp
  · rw [hnew] at htp
    cases htp
    simp [TabletParticipant.new]

theorem nodeAt_setQueue {queue' : List (Fin n × TabletMessage)}
    (htp : slave.tpMap tabletId = some ⟨node, queue'⟩) (log : LogId) :
    nodeAt log (slave.setQueue tabletId node queue) = nodeAt log slave := by
  cases log with
  | slave => rfl
  | tablet tabletId' =>
      by_cases ht : tabletId' = tabletId
      · simp [nodeAt, Slave.log, Slave.setQueue, ht, htp]
      · simp [nodeAt, Slave.log, Slave.setQueue, KeyMap.assign_of_ne _ _ ht]

theorem queuedAt_cons {i src : Fin n} {message : TabletMessage}
    (htp : slave.tpMap tabletId = some ⟨node, (src, message) :: queue⟩)
    (hrange : Server.convert message.range = tabletId) (log : LogId) :
    queuedAt log i slave = carried log ⟨src, i, .tabletMessage message⟩ +
      queuedAt log i (slave.setQueue tabletId node queue) := by
  cases log with
  | slave =>
      have hnone : payloadFor .slave (.tabletMessage message) = none := rfl
      rw [carried_of_none hnone]
      rfl
  | tablet tabletId' =>
      by_cases ht : tabletId' = tabletId
      · subst tabletId'
        simp only [queuedAt, Slave.setQueue, htp, KeyMap.assign_self, carried,
          Multiset.coe_add, List.filterMap_cons]
        cases packetFor (.tablet tabletId) (⟨src, i, .tabletMessage message⟩ : Envelope n) <;> rfl
      · have hnone : payloadFor (.tablet tabletId') (.tabletMessage message) = none := by
          have ht' : ¬ Server.convert message.range = tabletId' := fun heq => ht (heq ▸ hrange)
          simp [payloadFor, ht']
        rw [carried_of_none hnone, zero_add]
        simp [queuedAt, Slave.setQueue, KeyMap.assign_of_ne _ _ ht]

end Addressed

end UniversalDB.SlaveGroup
