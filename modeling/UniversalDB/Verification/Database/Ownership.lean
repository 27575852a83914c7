import UniversalDB.Verification.Database.Generations
import UniversalDB.Verification.Masters.KeySpaces
import UniversalDB.Verification.TabletParticipantManager

/-! # The participants of a slave are the ranges of its group

A slave creates participants when it learns of new ranges and never removes one. Since the
selections for a group only grow, its participants are at any time the ranges of one
selection, and no other group has a participant for one of their tables. -/

namespace UniversalDB.Database

open PaxosLog Masters

variable {ι : Type} {groups : List SlaveGroup}

/-! ## Selections grow -/

/-- The ranges that a selection gives to its group. -/
def rangesOf (content : NewKeySpaceSelected) : List Server.KeySpaceRange :=
  content.newRanges.map Server.convert

/-- The ranges of a group after its first `k` selections. -/
def rangesAt (contents : List NewKeySpaceSelected) : ℕ → List Server.KeySpaceRange
  | 0 => []
  | k + 1 => (contents[k]?).elim [] rangesOf

variable {trace : List (Masters.Event ι)} {m : Masters.State ι}

/-- A selection has the ranges that its group has after it. -/
theorem owned_of_selection (h : Masters.Inv groups trace m) {k : ℕ}
    {content : NewKeySpaceSelected}
    (hentry : m.agreedLog.entries[k]? = some (.keySpaceSelected content)) :
    ∃ ranges sent, History groups (m.agreedLog.entries.take (k + 1)) ranges sent ∧
      owned ranges ⟨content.slaveGroupId⟩ = rangesOf content := by
  have hlt := (List.getElem?_eq_some_iff.mp hentry).1
  obtain ⟨ranges, sent, hhistory, -⟩ := h.history hlt.le
  obtain ⟨ranges', sent', hadvances⟩ := h.pinned.entries k _ hentry ranges sent hhistory
  have hconcat := hhistory.concat (hadvances.runCalls _)
  have htake : m.agreedLog.entries.take (k + 1) =
      m.agreedLog.entries.take k ++ [.keySpaceSelected content] := by
    rw [List.take_add_one, hentry]
    rfl
  rw [← htake] at hconcat
  refine ⟨ranges', _, hconcat, ?_⟩
  cases hadvances with
  | selected hlookup hnew hnewKeySpace =>
      rw [owned_insert]
      simp [KeySpaceManager.buildNewKeySpaceSelectedPaxos, rangesOf, Function.comp_def]

/-- A later selection for a group has all ranges of an earlier one. -/
theorem rangesOf_subset (h : Masters.Inv groups trace m) (groupId : SlaveGroupId) :
    (selections groupId m.agreedLog.entries).Pairwise
      fun content content' => rangesOf content ⊆ rangesOf content' := by
  rw [selections, List.pairwise_filterMap, List.pairwise_iff_getElem]
  intro k k' hk hk' hlt content hcontent content' hcontent'
  obtain ⟨hentry, hgroup⟩ := selectionOf_eq_some hcontent
  obtain ⟨hentry', hgroup'⟩ := selectionOf_eq_some hcontent'
  obtain ⟨ranges, sent, hhistory, howned⟩ :=
    owned_of_selection h (hentry ▸ List.getElem?_eq_getElem hk)
  obtain ⟨ranges', sent', hhistory', howned'⟩ :=
    owned_of_selection h (hentry' ▸ List.getElem?_eq_getElem hk')
  rw [← howned, ← howned', ← hgroup, ← hgroup']
  exact owned_subset_of_history h.pinned.entries (by omega) (by omega) hhistory hhistory' groupId

theorem rangesAt_subset (h : Masters.Inv groups trace m) (groupId : SlaveGroupId) {k : ℕ}
    {content : NewKeySpaceSelected}
    (hcontent : (selections groupId m.agreedLog.entries)[k]? = some content) :
    rangesAt (selections groupId m.agreedLog.entries) k ⊆ rangesOf content := by
  cases k with
  | zero => exact List.nil_subset _
  | succ k =>
      obtain ⟨hlt, rfl⟩ := List.getElem?_eq_some_iff.mp hcontent
      have hpairwise := List.pairwise_iff_getElem.mp (rangesOf_subset h groupId)
      rw [rangesAt, List.getElem?_eq_getElem (by omega)]
      exact hpairwise k (k + 1) (by omega) hlt (by omega)

/-- The tables of a group's ranges are its own in the master log. -/
theorem owns_of_mem_rangesAt (h : Masters.Inv groups trace m) {groupId : SlaveGroupId} {k : ℕ}
    {r : Server.KeySpaceRange}
    (hr : r ∈ rangesAt (selections groupId m.agreedLog.entries) k) :
    Owns groups m.agreedLog.entries groupId (tableOf r) ∧
      r = wholeTable r.databaseId r.tableId := by
  cases k with
  | zero => cases hr
  | succ k =>
      rw [rangesAt] at hr
      cases hcontent : (selections groupId m.agreedLog.entries)[k]? with
      | none =>
          rw [hcontent] at hr
          cases hr
      | some content =>
          rw [hcontent] at hr
          obtain ⟨hmem, hid⟩ := mem_selections.mp (List.mem_of_getElem? hcontent)
          obtain ⟨j, hj⟩ := List.mem_iff_getElem?.mp hmem
          have hlt := (List.getElem?_eq_some_iff.mp hj).1
          obtain ⟨ranges, sent, hhistory, howned⟩ := owned_of_selection h hj
          obtain ⟨ranges', sent', hhistory', hinv⟩ := h.history (Nat.succ_le_of_lt hlt)
          obtain ⟨rfl, rfl⟩ := hhistory.unique hhistory'
          have hr' : r ∈ owned ranges groupId := by
            rw [show groupId = ⟨content.slaveGroupId⟩ by rw [hid], howned]
            exact hr
          exact ⟨⟨j + 1, ranges, sent, hlt, hhistory, r, hr', rfl⟩,
            hinv.oneOwner.whole groupId r hr'⟩

/-! ## Participants -/

/-- A slave has a participant for each of its ranges, and no others. -/
structure SlaveRanges (contents : List NewKeySpaceSelected) (k : ℕ)
    (manager : SlaveKeySpaceManager) : Prop where
  ranges : manager.ranges = rangesAt contents k
  participants : ∀ r, (manager.participantManager.tpMap.lookup r).isSome ↔ r ∈ manager.ranges

/-- What the callback for a selection leaves, when its assertion holds. -/
theorem manager_of_callback {manager manager' : SlaveKeySpaceManager}
    {sent : List Message.KeySpaceChanged} {content : NewKeySpaceSelected} {index : ℕ}
    (h : runCalls SlaveKeySpaceManager.run manager
      (callsFor registrations index (changedBy content)) = .ok (manager', sent)) :
    manager'.ranges = rangesOf content ∧ manager'.participantManager =
      (manager.participantManager.handleKeySpaceChange (rangesOf content)).1 := by
  have hcalls : callsFor registrations index (changedBy content) =
      [⟨(), index, changedBy content⟩] := rfl
  rw [hcalls, runCalls_singleton] at h
  simp only [SlaveKeySpaceManager.run, SlaveKeySpaceManager.callback, changedBy,
    PaxosLogEntry.getKeySpaceChanged, universalAssert, bind, Except.bind, pure,
    Except.pure] at h
  split at h
  · cases h
  · cases h
    exact ⟨rfl, rfl⟩

/-- A new selection has the ranges of the last one, so the slave has no participant
besides the new ranges. -/
theorem SlaveRanges.callback {contents : List NewKeySpaceSelected} {k : ℕ}
    {manager manager' : SlaveKeySpaceManager} {sent : List Message.KeySpaceChanged}
    (h : SlaveRanges contents k manager) {content : NewKeySpaceSelected}
    (hcontent : contents[k]? = some content)
    (hsubset : rangesAt contents k ⊆ rangesOf content) {index : ℕ}
    (hcalls : runCalls SlaveKeySpaceManager.run manager
      (callsFor registrations index (changedBy content)) = .ok (manager', sent)) :
    SlaveRanges contents (k + 1) manager' := by
  obtain ⟨hranges, hmanager⟩ := manager_of_callback hcalls
  constructor
  · rw [hranges, rangesAt, hcontent]
    rfl
  · intro r
    have hextended := TabletParticipantManager.handleKeySpaceChange_extended (rangesOf content)
      manager.participantManager
    rw [hranges, hmanager, hextended.isSome, h.participants, h.ranges]
    constructor
    · rintro (hold | hnew)
      · exact hsubset hold
      · exact hnew
    · exact .inr

variable {s : State ι}

theorem slaveRanges_take (h : Inv groups trace s)
    (hmasters : Masters.Inv groups trace s.masters) (groupId : SlaveGroupId) :
    ∀ k ≤ (s.slaveLogs groupId).entries.length, ∃ manager sent,
      SlaveHistory ((s.slaveLogs groupId).entries.take k) manager sent ∧
      SlaveRanges (selections groupId s.masters.agreedLog.entries)
        ((s.slaveLogs groupId).entries.take k).length manager := by
  apply replayed_take (I := fun G manager _ =>
    SlaveRanges (selections groupId s.masters.agreedLog.entries) G.length manager)
  · refine ⟨rfl, ?_⟩
    intro r
    simp [SlaveKeySpaceManager.new, TabletParticipantManager.new]
  · intro k entry manager sent hentry hhistory hranges
    obtain ⟨content, hcontent, rfl⟩ := (h.pinned groupId).entries k entry hentry
    have hlt := (List.getElem?_eq_some_iff.mp hentry).1
    obtain ⟨manager₁, sent₁, hhistory₁, hinv⟩ := h.slaveHistory hmasters groupId hlt.le
    obtain ⟨rfl, rfl⟩ := hhistory.unique hhistory₁
    have hnext : content.generation =
        SlaveKeySpaceManager.nextGeneration manager.generation := by
      rw [hmasters.selection_generation hcontent, SlaveKeySpaceManager.nextGeneration,
        hinv.generation, Nat.mod_add_mod]
    obtain ⟨manager', hrun, -⟩ := runCalls_changedBy hnext k
    refine ⟨manager', _, hrun, ?_⟩
    rw [List.length_append, List.length_singleton]
    exact hranges.callback hcontent (rangesAt_subset hmasters groupId hcontent) hrun

/-- The participants of a slave are the ranges that the selections give to its group, up to
the one that it has applied last. -/
theorem Inv.slaveRanges (h : Inv groups trace s) (hmasters : Masters.Inv groups trace s.masters)
    {slave : EndpointId} {groupId : SlaveGroupId} (hgroup : groupOf groups slave = some groupId) :
    ∃ k, (s.slaves slave).paxosLog.nextAvailableIndex = .ok k ∧
      SlaveRanges (selections groupId s.masters.agreedLog.entries) k
        (s.slaves slave).keySpaceManager := by
  obtain ⟨k, sent, hindex, hk, hhistory⟩ :=
    (h.slaves slave groupId hgroup).replica.nextAvailableIndex
  obtain ⟨manager, sent', hhistory', hranges⟩ := slaveRanges_take h hmasters groupId k hk
  obtain ⟨rfl, rfl⟩ := hhistory.unique hhistory'
  rw [List.length_take_of_le hk] at hranges
  exact ⟨k, hindex, hranges⟩

/-! ## One group for each table -/

/-- The ranges that a slave has participants for. -/
def Serves (s : State ι) (slave : EndpointId) (r : Server.KeySpaceRange) : Prop :=
  ((s.slaves slave).keySpaceManager.participantManager.tpMap.lookup r).isSome

/-- Who serves which tables. -/
structure Partitioned (groups : List SlaveGroup) (trace : List (Masters.Event ι)) (s : State ι) :
    Prop where
  exact : ∀ slave groupId, groupOf groups slave = some groupId →
    ∃ k, (s.slaves slave).paxosLog.nextAvailableIndex = .ok k ∧ ∀ r, Serves s slave r ↔
      r ∈ rangesAt (selections groupId s.masters.agreedLog.entries) k
  once : ∀ slave groupId, groupOf groups slave = some groupId → ∀ r r', Serves s slave r →
    Serves s slave r' → tableOf r = tableOf r' → r = r'
  apart : ∀ slave slave' groupId groupId', groupOf groups slave = some groupId →
    groupOf groups slave' = some groupId' → ∀ r r', Serves s slave r → Serves s slave' r' →
      tableOf r = tableOf r' → groupId = groupId'
  /-- No participant outside the group that a client has been told of takes its requests. -/
  answered : ∀ i endpointId message response, .responded i endpointId message response ∈ trace →
    response.errorCode ≠ .ERROR → ∀ slave groupId, groupOf groups slave = some groupId →
      ∀ r key, Serves s slave r →
        Server.withinRange r message.databaseId message.tableId key →
          groupId = ⟨response.slaveGroupId⟩

variable [DecidableEq ι]

theorem partitioned (hdisjoint : DisjointSlaves groups)
    (h : (machine ι groups).system.Run trace s) (hbounded : Bounded s) :
    Partitioned groups trace s := by
  have hinv := inv_of_run hdisjoint h hbounded
  have hmasters := Masters.inv_of_run (masters_run h)
  have hexact : ∀ slave groupId, groupOf groups slave = some groupId →
      ∃ k, (s.slaves slave).paxosLog.nextAvailableIndex = .ok k ∧ ∀ r, Serves s slave r ↔
        r ∈ rangesAt (selections groupId s.masters.agreedLog.entries) k := by
    intro slave groupId hgroup
    obtain ⟨k, hindex, hranges⟩ := hinv.slaveRanges hmasters hgroup
    refine ⟨k, hindex, fun r => ?_⟩
    rw [← hranges.ranges]
    exact hranges.participants r
  have howns : ∀ slave groupId, groupOf groups slave = some groupId → ∀ r, Serves s slave r →
      Owns groups s.masters.agreedLog.entries groupId (tableOf r) ∧
        r = wholeTable r.databaseId r.tableId := by
    intro slave groupId hgroup r hr
    obtain ⟨k, -, hiff⟩ := hexact slave groupId hgroup
    exact owns_of_mem_rangesAt hmasters ((hiff r).mp hr)
  refine ⟨hexact, ?_, ?_, ?_⟩
  · intro slave groupId hgroup r r' hr hr' htable
    rw [(howns slave groupId hgroup r hr).2, (howns slave groupId hgroup r' hr').2]
    obtain ⟨hdatabase, hname⟩ := Prod.mk.inj htable
    rw [hdatabase, hname]
  · intro slave slave' groupId groupId' hgroup hgroup' r r' hr hr' htable
    have hleft := (howns slave groupId hgroup r hr).1
    rw [htable] at hleft
    exact hleft.unique hmasters (howns slave' groupId' hgroup' r' hr').1
  · intro i endpointId message response hmem hcode slave groupId hgroup r key hr hwithin
    have hleft := (howns slave groupId hgroup r hr).1
    have hshown := hmasters.events _ hmem hcode
    obtain ⟨hdatabase, htable, -⟩ := Server.withinRange_iff.mp hwithin
    rw [← hdatabase, ← htable] at hshown
    exact hleft.unique hmasters hshown

instance (s : State ι) (slave : EndpointId) (r : Server.KeySpaceRange) :
    Decidable (Serves s slave r) := inferInstanceAs (Decidable (_ = true))

/-- A slave that has learned of the first table of its group. -/
theorem partitioned_handshake :
    ∃ trace s, (machine ℕ twoGroups).system.Run trace s ∧
      Serves s ⟨"a", 0⟩ (wholeTable "db" "t") ∧
      ∀ slave' groupId', groupOf twoGroups slave' = some groupId' →
        ∀ r', Serves s slave' r' → ("db", "t") = tableOf r' → ⟨"g"⟩ = groupId' := by
  obtain ⟨trace, s, hrun, hlength, hserves⟩ := (machine ℕ twoGroups).exists_run
    handshakeActions (p := fun r => r.2.masters.agreedLog.entries.length = 2 ∧
      Serves r.2 ⟨"a", 0⟩ (wholeTable "db" "t")) (by decide +kernel)
  simp only at hlength hserves
  have hbounded : Bounded s := by
    intro groupId
    have hle := List.length_filterMap_le (selectionOf groupId) s.masters.agreedLog.entries
    rw [hlength] at hle
    exact lt_of_le_of_lt hle (by decide)
  refine ⟨trace, s, hrun, hserves, ?_⟩
  intro slave' groupId' hgroup' r' hr' htable
  exact (partitioned (by decide) hrun hbounded).apart ⟨"a", 0⟩ slave' ⟨"g"⟩ groupId' rfl hgroup'
    _ r' hserves hr' htable

end UniversalDB.Database
