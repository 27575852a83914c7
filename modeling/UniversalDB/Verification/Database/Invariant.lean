import UniversalDB.Verification.Database.SlaveLog

/-! # The invariant of masters and slaves -/

namespace UniversalDB.Database

open PaxosLog Masters

variable {ι : Type} {groups : List SlaveGroup} {trace events : List (Masters.Event ι)}
  {s s' : State ι}

theorem mem_sentToSlaves {p : ToSlave ι} :
    p ∈ sentToSlaves events ↔ .sent p.master p.sent ∈ events := by
  induction events with
  | nil => simp [sentToSlaves]
  | cons e events ih =>
      cases e with
      | sent i x =>
          obtain ⟨master, sent⟩ := p
          simp [sentToSlaves, ih]
      | _ => simp [sentToSlaves, ih]

/-- A slave has not stopped, and its state is that of a prefix of the log of its group. -/
structure SlaveInv (G : List PaxosLogEntry) (v : Slave ι) : Prop where
  replica : Replica SlaveKeySpaceManager.run registrations .new G v.paxosLog v.keySpaceManager
  live : v.exception = none

/-- The log of the slave's group holds the generation that the slave tells of. -/
def Held (groups : List SlaveGroup) (slaveLogs : SlaveGroupId → AgreedLog PaxosLogEntry)
    (slave : EndpointId) (message : Message.KeySpaceChanged) : Prop :=
  ∃ groupId, ∃ k < (slaveLogs groupId).entries.length, groupOf groups slave = some groupId ∧
    message.generation = (k + 1) % 2 ^ 32

structure Inv (groups : List SlaveGroup) (trace : List (Masters.Event ι)) (s : State ι) :
    Prop where
  slaves : ∀ slave groupId, groupOf groups slave = some groupId →
    SlaveInv (s.slaveLogs groupId).entries (s.slaves slave)
  pinned : ∀ groupId,
    (s.slaveLogs groupId).Pinned (Follows s.masters.agreedLog.entries groupId)
  length : ∀ groupId, (s.slaveLogs groupId).entries.length ≤ 2 ^ 64 - 1
  toSlaves : ∀ p ∈ s.toSlaves,
    Selects (DataMaster.registerConfigs groups) s.masters.agreedLog.entries p.sent
  tasks : ∀ slave, ∀ task ∈ (s.slaves slave).asyncQueue,
    Selects (DataMaster.registerConfigs groups) s.masters.agreedLog.entries
      ⟨slave, task.message⟩
  toMasters : ∀ p ∈ s.toMasters, Held groups s.slaveLogs p.slave p.message
  received : ∀ i slave message, .received i slave message ∈ trace →
    Held groups s.slaveLogs slave message

/-- Fewer than `2 ^ 32` selections for each group, so that no generation is out of range. -/
def Bounded (s : State ι) : Prop :=
  ∀ groupId, (selections groupId s.masters.agreedLog.entries).length < 2 ^ 32

theorem initial_inv (groups : List SlaveGroup) :
    Inv groups [] (State.initial groups : State ι) := by
  constructor
  · intro slave groupId _
    refine ⟨?_, rfl⟩
    simp only [State.initial, new_paxosLog]
    exact replica_register
  · exact fun groupId => AgreedLog.pinned_empty
  all_goals simp [State.initial, AgreedLog.empty, Slave.new]

/-- A step of the masters. -/
theorem Inv.nextMaster [DecidableEq ι] (h : Inv groups trace s) {a : Masters.Action ι}
    (hnext : nextMaster s a = some (events, s'))
    (hmasters : Masters.Inv groups (trace ++ events) s'.masters)
    (ha : ∀ i slave message, a = .keySpaceChanged i slave message →
      ∃ p ∈ s.toMasters, p.slave = slave ∧ p.message = message) :
    Inv groups (trace ++ events) s' := by
  unfold Database.nextMaster at hnext
  split at hnext
  · cases hnext
  · rename_i events' masters hstep
    cases hnext
    obtain ⟨rest, hentries⟩ := (move_of_next hstep).entries_append
    constructor
    · exact h.slaves
    · intro groupId
      refine (h.pinned groupId).mono fun before e hfollows => ?_
      simp only [hentries]
      exact hfollows.append rest
    · exact h.length
    · intro p hp
      rcases List.mem_append.mp hp with hold | hnew
      · simp only [hentries]
        exact (h.toSlaves p hold).append rest
      · exact hmasters.events _ (List.mem_append_right _ (mem_sentToSlaves.mp hnew))
    · intro slave task htask
      simp only [hentries]
      exact (h.tasks slave task htask).append rest
    · exact h.toMasters
    · intro i slave message hmem
      rcases List.mem_append.mp hmem with hold | hnew
      · exact h.received i slave message hold
      · obtain ⟨p, hp, rfl, rfl⟩ := ha _ _ _ ((move_of_next hstep).received hnew)
        exact h.toMasters p hp

theorem Inv.slaveHistory (h : Inv groups trace s)
    (hmasters : Masters.Inv groups trace s.masters) (groupId : SlaveGroupId) {k : ℕ}
    (hk : k ≤ (s.slaveLogs groupId).entries.length) :
    ∃ m sent, SlaveHistory ((s.slaveLogs groupId).entries.take k) m sent ∧
      SlaveHistoryInv ((s.slaveLogs groupId).entries.take k) m sent :=
  slaveHistory_take (fun _ _ _ hcontent => hmasters.selection_generation hcontent)
    (h.pinned groupId).entries k hk

theorem Held.mono {slaveLogs slaveLogs' : SlaveGroupId → AgreedLog PaxosLogEntry}
    {slave : EndpointId} {message : Message.KeySpaceChanged}
    (h : Held groups slaveLogs slave message)
    (hle : ∀ g, (slaveLogs g).entries.length ≤ (slaveLogs' g).entries.length) :
    Held groups slaveLogs' slave message := by
  obtain ⟨groupId, k, hk, hgroup, hgeneration⟩ := h
  exact ⟨groupId, k, hk.trans_le (hle groupId), hgroup, hgeneration⟩

theorem State.setSlave_append_nil (s : State ι) {slave : EndpointId} {v : Slave ι} :
    { s.setSlave slave v with toMasters := s.toMasters ++ [] } = s.setSlave slave v := by
  rw [List.append_nil]
  rfl

/-- A step of one slave that leaves the logs alone. -/
theorem Inv.setSlave (h : Inv groups trace s) {slave : EndpointId} {v : Slave ι}
    (hv : ∀ groupId, groupOf groups slave = some groupId →
      SlaveInv (s.slaveLogs groupId).entries v)
    (htasks : ∀ task ∈ v.asyncQueue, Selects (DataMaster.registerConfigs groups)
      s.masters.agreedLog.entries ⟨slave, task.message⟩)
    {replies : List (ToMaster ι)}
    (hreplies : ∀ p ∈ replies, Held groups s.slaveLogs p.slave p.message) :
    Inv groups trace { s.setSlave slave v with toMasters := s.toMasters ++ replies } := by
  constructor
  · exact (Function.forall_update_iff s.slaves fun slave' v => ∀ groupId,
      groupOf groups slave' = some groupId → SlaveInv (s.slaveLogs groupId).entries v).mpr
        ⟨hv, fun slave' _ => h.slaves slave'⟩
  · exact h.pinned
  · exact h.length
  · exact h.toSlaves
  · exact (Function.forall_update_iff s.slaves fun slave' v => ∀ task ∈ v.asyncQueue,
      Selects (DataMaster.registerConfigs groups) _ ⟨slave', task.message⟩).mpr
        ⟨htasks, fun slave' _ => h.tasks slave'⟩
  · intro p hp
    rcases List.mem_append.mp hp with hold | hnew
    · exact h.toMasters p hold
    · exact hreplies p hnew
  · exact h.received

/-- The log of a group changes. -/
theorem Inv.setLog (h : Inv groups trace s) (groupId : SlaveGroupId)
    {L : AgreedLog PaxosLogEntry} {rest : List PaxosLogEntry}
    (hentries : L.entries = (s.slaveLogs groupId).entries ++ rest)
    (hpinned : L.Pinned (Follows s.masters.agreedLog.entries groupId))
    (hlength : L.entries.length ≤ 2 ^ 64 - 1) :
    Inv groups trace { s with slaveLogs := Function.update s.slaveLogs groupId L } := by
  have hle : ∀ g, (s.slaveLogs g).entries.length ≤
      (Function.update s.slaveLogs groupId L g).entries.length := by
    apply (Function.forall_update_iff s.slaveLogs fun g L => (s.slaveLogs g).entries.length ≤
      L.entries.length).mpr
    refine ⟨?_, fun g _ => le_rfl⟩
    rw [hentries, List.length_append]
    exact Nat.le_add_right _ _
  constructor
  · intro slave
    apply (Function.forall_update_iff s.slaveLogs fun g L => groupOf groups slave = some g →
      SlaveInv L.entries (s.slaves slave)).mpr
    refine ⟨?_, fun g _ => h.slaves slave g⟩
    intro hgroup
    obtain ⟨hreplica, hlive⟩ := h.slaves slave groupId hgroup
    rw [hentries]
    exact ⟨hreplica.append rest, hlive⟩
  · exact (Function.forall_update_iff s.slaveLogs fun g L => L.Pinned (Follows _ g)).mpr
      ⟨hpinned, fun g _ => h.pinned g⟩
  · exact (Function.forall_update_iff s.slaveLogs fun _ L => L.entries.length ≤ 2 ^ 64 - 1).mpr
      ⟨hlength, fun g _ => h.length g⟩
  · exact h.toSlaves
  · exact h.tasks
  · exact fun p hp => (h.toMasters p hp).mono hle
  · exact fun i slave message hmem => (h.received i slave message hmem).mono hle

end UniversalDB.Database
