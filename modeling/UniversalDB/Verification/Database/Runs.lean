import UniversalDB.Verification.Database.Invariant
import UniversalDB.Verification.Masters.KeySpaces

/-! # The invariant of masters and slaves holds in every run -/

namespace UniversalDB.Database

open PaxosLog Masters

variable {ι : Type} {groups : List SlaveGroup} {trace events : List (Masters.Event ι)}
  {s s' : State ι}

/-! ## Slaves -/

/-- A task proposes the next generation, or replies with the current one. -/
theorem runTask_cases {manager : SlaveKeySpaceManager} {message : Message.NewKeySpaceSelected}
    {m k : ℕ} (hmanager : manager.generation = m) (hm : m < 2 ^ 32)
    (hmessage : message.generation = k + 1) :
    (m = k ∧ manager.runTask message = ⟨none, some (.keySpaceChanged
        ⟨message.newRanges, message.generation⟩), SlaveKeySpaceManager.WAIT_FOR_PAXOS⟩) ∨
      (m = k + 1 ∧ manager.runTask message =
        ⟨some ⟨message.generation⟩, none, SlaveKeySpaceManager.TERMINATE⟩) ∨
      manager.runTask message = ⟨none, none, SlaveKeySpaceManager.TERMINATE⟩ := by
  have hadd : message.newRanges.map SlaveKeySpaceManager.rangeToAdd = message.newRanges := by
    rw [funext SlaveKeySpaceManager.rangeToAdd_eq, List.map_id']
  unfold SlaveKeySpaceManager.runTask
  rw [hmanager, hmessage, hadd]
  split
  · exact .inr (.inr rfl)
  · split
    · rename_i hnext
      left
      refine ⟨?_, rfl⟩
      rw [SlaveKeySpaceManager.nextGeneration] at hnext
      by_cases hlast : m + 1 < 2 ^ 32
      · rw [Nat.mod_eq_of_lt hlast] at hnext
        omega
      · have hwrapped : m + 1 = 2 ^ 32 := by omega
        rw [hwrapped, Nat.mod_self] at hnext
        omega
    · split
      · rename_i hcurrent
        exact .inr (.inl ⟨hcurrent, rfl⟩)
      · exact .inr (.inr rfl)

theorem Inv.bounded (h : Inv groups trace s) (hbounded : Bounded s) (groupId : SlaveGroupId) :
    (s.slaveLogs groupId).entries.length < 2 ^ 32 :=
  (length_le_selections (h.pinned groupId).entries).trans_lt (hbounded groupId)

theorem Inv.runTask (h : Inv groups trace s) (hmasters : Masters.Inv groups trace s.masters)
    (hbounded : Bounded s) (hdisjoint : DisjointSlaves groups) {slave : EndpointId}
    {groupId : SlaveGroupId} (hgroup : groupOf groups slave = some groupId)
    {task : SlaveTask ι} {rest : List (SlaveTask ι)}
    (hqueue : (s.slaves slave).asyncQueue = task :: rest) :
    Inv groups trace (runTask s groupId slave task rest) := by
  obtain ⟨hreplica, hlive⟩ := h.slaves slave groupId hgroup
  obtain ⟨m, sent, hindex, hm, hhistory⟩ := hreplica.nextAvailableIndex
  obtain ⟨manager, sent', hhistory', hinv⟩ := h.slaveHistory hmasters groupId hm
  obtain ⟨rfl, rfl⟩ := hhistory.unique hhistory'
  have hlength := h.bounded hbounded groupId
  have hgeneration : (s.slaves slave).keySpaceManager.generation = m := by
    rw [hinv.generation, List.length_take_of_le hm, Nat.mod_eq_of_lt (by omega)]
  have htask : task ∈ (s.slaves slave).asyncQueue := by simp [hqueue]
  obtain ⟨k, content, hcontent, hmessage⟩ :=
    selection_of_selects hdisjoint (h.tasks slave task htask) hgroup
  have hk : k < (selections groupId s.masters.agreedLog.entries).length :=
    (List.getElem?_eq_some_iff.mp hcontent).1
  have hnumber : content.generation = k + 1 := by
    have hlt := hbounded groupId
    rw [hmasters.selection_generation hcontent, Nat.mod_eq_of_lt (by omega)]
  simp only at hmessage
  have htold : task.message.generation = k + 1 := by
    rw [hmessage]
    exact hnumber
  have hset : ∀ queue ⊆ task :: rest, ∀ replies : List (ToMaster ι),
      (∀ p ∈ replies, Held groups s.slaveLogs p.slave p.message) →
        Inv groups trace { s.setSlave slave { s.slaves slave with asyncQueue := queue } with
          toMasters := s.toMasters ++ replies } := by
    intro queue hsubset replies hreplies
    apply h.setSlave
    · intro groupId' hgroup'
      rw [hgroup] at hgroup'
      cases hgroup'
      exact ⟨hreplica, hlive⟩
    · intro task' htask'
      apply h.tasks slave task'
      rw [hqueue]
      exact hsubset htask'
    · exact hreplies
  rw [Database.runTask]
  rcases runTask_cases hgeneration (by omega) htold with
    ⟨hmk, hresult⟩ | ⟨hmk, hresult⟩ | hresult
  · -- the next generation is proposed for the index of its selection
    simp only [hresult, hindex]
    have hentry : PaxosLogEntry.keySpaceChanged
        ⟨task.message.newRanges, task.message.generation⟩ = changedBy content := by
      rw [hmessage, changedBy]
    refine (hset (task :: rest) (fun _ ht => ht) [] (by simp)).setLog groupId
      (List.append_nil _).symm ?_ (h.length groupId)
    apply (h.pinned groupId).propose hm
    refine ⟨content, ?_, hentry⟩
    rw [List.length_take_of_le hm, hmk]
    exact hcontent
  · simp only [hresult]
    apply hset rest (List.subset_cons_self _ _)
    intro p hp
    obtain rfl : p = ⟨slave, task.master, ⟨task.message.generation⟩⟩ := by simpa using hp
    refine ⟨groupId, k, by omega, hgroup, ?_⟩
    rw [hmessage]
    exact hmasters.selection_generation hcontent
  · simp only [hresult]
    exact hset rest (List.subset_cons_self _ _) [] (by simp)

theorem Inv.deliver (h : Inv groups trace s) {p : ToSlave ι} (hp : p ∈ s.toSlaves) :
    Inv groups trace (s.setSlave p.sent.endpointId
      ((s.slaves p.sent.endpointId).handleKeySpaceChange p.master p.sent.message)) := by
  rw [← s.setSlave_append_nil]
  apply h.setSlave
  · intro groupId hgroup
    obtain ⟨hreplica, hlive⟩ := h.slaves _ groupId hgroup
    exact ⟨hreplica, hlive⟩
  · intro task htask
    rcases List.mem_append.mp htask with hold | hnew
    · exact h.tasks _ task hold
    · rw [List.mem_singleton.mp hnew]
      exact h.toSlaves p hp
  · simp

theorem Inv.learn (h : Inv groups trace s) (hmasters : Masters.Inv groups trace s.masters)
    {slave : EndpointId} {groupId : SlaveGroupId}
    (hgroup : groupOf groups slave = some groupId) {index : ℕ} {entry : PaxosLogEntry}
    (hentry : (s.slaveLogs groupId).entries[index]? = some entry) (first : ι) :
    Inv groups trace (learn s slave index entry first) := by
  obtain ⟨hreplica, hlive⟩ := h.slaves slave groupId hgroup
  have hindex : index < 2 ^ 64 - 1 :=
    (List.getElem?_eq_some_iff.mp hentry).1.trans_le (h.length groupId)
  obtain ⟨l', calls, manager, m, sent, sent', hset, hcalls, hreplica', hm, hhistory⟩ :=
    hreplica.setEntry (fun k hk => by
      obtain ⟨manager, sent, hhistory, -⟩ := h.slaveHistory hmasters groupId hk
      exact ⟨manager, sent, hhistory⟩) hentry hindex
  have hresult : (s.slaves slave).setEntry index entry =
      .ok ({ s.slaves slave with paxosLog := l', keySpaceManager := manager }, sent') := by
    simp only [Slave.setEntry, hset, hcalls, bind, Except.bind]
    rfl
  obtain ⟨manager', sent'', hhistory', hinv⟩ := h.slaveHistory hmasters groupId hm
  obtain ⟨rfl, rfl⟩ := hhistory.unique hhistory'
  rw [Database.learn, hresult]
  apply h.setSlave
  · intro groupId' hgroup'
    rw [hgroup] at hgroup'
    cases hgroup'
    exact ⟨hreplica', hlive⟩
  · exact h.tasks slave
  · intro p hp
    obtain ⟨x, hx, rfl⟩ := List.mem_map.mp hp
    obtain ⟨k, hk, hgeneration⟩ := hinv.sent x (List.mem_append_right _ hx)
    rw [List.length_take_of_le hm] at hk
    exact ⟨groupId, k, by omega, hgroup, hgeneration⟩

/-! ## Steps -/

variable [DecidableEq ι]

theorem Inv.next (h : Inv groups trace s) (hmasters : Masters.Inv groups trace s.masters)
    (hmasters' : Masters.Inv groups (trace ++ events) s'.masters) (hbounded : Bounded s)
    (hdisjoint : DisjointSlaves groups) {a : Action ι}
    (hnext : next groups s a = some (events, s')) : Inv groups (trace ++ events) s' := by
  cases a with
  | master action =>
      cases action with
      | keySpaceChanged i slave message => cases hnext
      | _ => exact h.nextMaster hnext hmasters' nofun
  | deliverToMaster k =>
      simp only [Database.next] at hnext
      split at hnext
      · cases hnext
      · rename_i p hp
        apply h.nextMaster hnext hmasters'
        intro i slave message heq
        cases heq
        exact ⟨p, List.mem_of_getElem? hp, rfl, rfl⟩
  | deliverToSlave k =>
      simp only [Database.next] at hnext
      split at hnext
      · cases hnext
      · rename_i p hp
        split at hnext <;> cases hnext
        rw [List.append_nil]
        exact h.deliver (List.mem_of_getElem? hp)
  | run slave =>
      simp only [Database.next] at hnext
      split at hnext
      · rename_i groupId task rest hgroup hqueue
        split at hnext <;> cases hnext
        rw [List.append_nil]
        exact h.runTask hmasters hbounded hdisjoint hgroup hqueue
      · cases hnext
  | choose groupId k =>
      simp only [Database.next] at hnext
      split at hnext
      · rename_i hlength
        split at hnext
        · cases hnext
        · rename_i slaveLog hchoose
          cases hnext
          rw [List.append_nil]
          obtain ⟨entry, -, hentries, -⟩ := AgreedLog.choose_cases hchoose
          apply h.setLog groupId hentries ((h.pinned groupId).choose hchoose)
          rw [hentries, List.length_append, List.length_singleton]
          omega
      · cases hnext
  | learn slave index first =>
      simp only [Database.next] at hnext
      split at hnext
      · cases hnext
      · rename_i groupId hgroup
        split at hnext
        · cases hnext
        · rename_i entry hentry
          split at hnext <;> cases hnext
          rw [List.append_nil]
          exact h.learn hmasters hgroup hentry first

omit [DecidableEq ι] in
theorem runTask_masters (s : State ι) (groupId : SlaveGroupId) (slave : EndpointId)
    (task : SlaveTask ι) (rest : List (SlaveTask ι)) :
    (runTask s groupId slave task rest).masters = s.masters := by
  rw [Database.runTask]
  split
  · rfl
  · split <;> rfl

omit [DecidableEq ι] in
theorem learn_masters (s : State ι) (slave : EndpointId) (index : ℕ) (entry : PaxosLogEntry)
    (first : ι) : (learn s slave index entry first).masters = s.masters := by
  rw [Database.learn]
  split <;> rfl

/-- A step is one of the masters, or they see nothing of it. -/
theorem masters_of_next {a : Action ι} (h : next groups s a = some (events, s')) :
    (events = [] ∧ s'.masters = s.masters) ∨
      ∃ action, Masters.next s.masters action = some (events, s'.masters) := by
  have hmaster : ∀ action, nextMaster s action = some (events, s') →
      Masters.next s.masters action = some (events, s'.masters) := by
    intro action hnext
    unfold Database.nextMaster at hnext
    split at hnext
    · cases hnext
    · rename_i hstep
      cases hnext
      exact hstep
  cases a with
  | master action =>
      cases action with
      | keySpaceChanged i slave message => cases h
      | _ => exact .inr ⟨_, hmaster _ h⟩
  | deliverToMaster k =>
      simp only [Database.next] at h
      split at h
      · cases h
      · exact .inr ⟨_, hmaster _ h⟩
  | deliverToSlave k =>
      simp only [Database.next] at h
      split at h
      · cases h
      · split at h <;> cases h
        exact .inl ⟨rfl, rfl⟩
  | run slave =>
      simp only [Database.next] at h
      split at h
      · split at h <;> cases h
        exact .inl ⟨rfl, runTask_masters _ _ _ _ _⟩
      · cases h
  | choose groupId k =>
      simp only [Database.next] at h
      split at h
      · split at h <;> cases h
        exact .inl ⟨rfl, rfl⟩
      · cases h
  | learn slave index first =>
      simp only [Database.next] at h
      split at h
      · cases h
      · split at h
        · cases h
        · split at h <;> cases h
          exact .inl ⟨rfl, learn_masters _ _ _ _ _⟩

/-! ## Runs -/

/-- The masters run as they do alone. -/
theorem masters_run (h : (machine ι groups).system.Run trace s) :
    (Masters.machine ι groups).system.Run trace s.masters := by
  apply h.invariant (I := fun trace s => (Masters.machine ι groups).system.Run trace s.masters)
  · rintro s rfl
    exact .start rfl
  · rintro past s events s' - hrun ⟨a, -, hnext⟩
    rcases masters_of_next hnext with ⟨rfl, hsame⟩ | ⟨action, hstep⟩
    · rw [List.append_nil, hsame]
      exact hrun
    · exact hrun.step ⟨action, trivial, hstep⟩

theorem bounded_of_next {a : Action ι} (hnext : next groups s a = some (events, s'))
    (hbounded : Bounded s') : Bounded s := by
  intro groupId
  have hlast := hbounded groupId
  rcases masters_of_next hnext with ⟨-, hsame⟩ | ⟨action, hstep⟩
  · rw [hsame] at hlast
    exact hlast
  · obtain ⟨rest, hentries⟩ := (move_of_next hstep).entries_append
    rw [hentries, selections, List.filterMap_append, List.length_append] at hlast
    exact lt_of_le_of_lt (Nat.le_add_right _ _) hlast

theorem inv_of_run (hdisjoint : DisjointSlaves groups)
    (h : (machine ι groups).system.Run trace s) (hbounded : Bounded s) :
    Inv groups trace s := by
  revert hbounded
  apply h.invariant (I := fun trace s => Bounded s → Inv groups trace s)
  · rintro s rfl -
    exact initial_inv groups
  · rintro past s events s' hrun hinv ⟨a, -, hnext⟩ hbounded'
    have hbounded := bounded_of_next hnext hbounded'
    have hrun' : (machine ι groups).system.Run (past ++ events) s' :=
      hrun.step ⟨a, trivial, hnext⟩
    exact (hinv hbounded).next (Masters.inv_of_run (masters_run hrun))
      (Masters.inv_of_run (masters_run hrun')) hbounded hdisjoint hnext

end UniversalDB.Database
