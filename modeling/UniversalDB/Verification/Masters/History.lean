import UniversalDB.Model.DataMaster
import UniversalDB.Verification.PaxosLog.Replica

/-! # The key spaces that a master log leads to -/

namespace UniversalDB.Masters

open KeySpaceManager PaxosLog

def registrations : List (EntryContentCase × KeySpaceManager.Callback) :=
  [(.kKeySpaceSelected, .keySpaceSelected), (.kKeySpaceCommit, .keySpaceCommit)]

theorem new_paxosLog (groups : List SlaveGroup) :
    (DataMaster.new groups).paxosLog = PaxosLog.register registrations := rfl

/-! ## Entries -/

/-- The range of a whole table. -/
def wholeTable (databaseId tableId : String) : Server.KeySpaceRange :=
  ⟨databaseId, tableId, none, none⟩

def tableOf (range : Server.KeySpaceRange) : String × String :=
  (range.databaseId, range.tableId)

/-- The ranges that a group has, or is in the progress of having assigned. -/
def owned (ranges : SlaveGroupRanges) (groupId : SlaveGroupId) : List Server.KeySpaceRange :=
  match ranges.lookup groupId with
  | none => []
  | some (.keySpace keySpace) => keySpace.ranges
  | some (.newKeySpace newKeySpace) => newKeySpace.newRanges

/-- What a master can propose in a state of the key spaces, and what the entry does to
them: a free group gets a table that no group has, or a group commits its new ranges. -/
inductive Advances (config : GroupConfigManager) (ranges : SlaveGroupRanges) :
    PaxosLogEntry → SlaveGroupRanges → List Sent → Prop where
  | selected {groupId : SlaveGroupId} {keySpace : KeySpace} {newKeySpace : NewKeySpace}
      {databaseId tableId : String} (hlookup : ranges.lookup groupId = some (.keySpace keySpace))
      (hnew : ∀ g, ∀ r ∈ owned ranges g, tableOf r ≠ (databaseId, tableId))
      (hnewKeySpace : newKeySpace = ⟨keySpace.ranges,
        keySpace.ranges ++ [wholeTable databaseId tableId],
        nextGeneration keySpace.generation⟩) :
      Advances config ranges
        (.keySpaceSelected (buildNewKeySpaceSelectedPaxos groupId newKeySpace.newRanges
          newKeySpace.generation))
        (AList.insert groupId (.newKeySpace newKeySpace) ranges)
        (sendNewKeySpace config groupId newKeySpace)
  | commit {groupId : SlaveGroupId} {newKeySpace : NewKeySpace}
      (hlookup : ranges.lookup groupId = some (.newKeySpace newKeySpace)) :
      Advances config ranges (.keySpaceCommit ⟨groupId.id, newKeySpace.generation⟩)
        (AList.insert groupId (.keySpace ⟨newKeySpace.newRanges, newKeySpace.generation⟩) ranges)
        []

variable {config : GroupConfigManager} {ranges ranges' : SlaveGroupRanges}
  {entry : PaxosLogEntry} {sent : List Sent}

/-- No assertion fails on such an entry. -/
theorem Advances.runCalls (h : Advances config ranges entry ranges' sent) (index : ℕ) :
    PaxosLog.runCalls (run config) ranges (callsFor registrations index entry) =
      .ok (ranges', sent) := by
  cases h with
  | @selected groupId keySpace newKeySpace databaseId tableId hlookup hnew hnewKeySpace =>
      have hcalls : callsFor registrations index (.keySpaceSelected
          (buildNewKeySpaceSelectedPaxos groupId newKeySpace.newRanges newKeySpace.generation)) =
          [⟨.keySpaceSelected, index, .keySpaceSelected (buildNewKeySpaceSelectedPaxos groupId
            newKeySpace.newRanges newKeySpace.generation)⟩] := rfl
      have hgeneration : nextGeneration keySpace.generation = newKeySpace.generation := by
        rw [hnewKeySpace]
      have hranges : keySpace.ranges = newKeySpace.ranges := by rw [hnewKeySpace]
      rw [hcalls, runCalls_singleton]
      simp [run, selectedCallback, PaxosLogEntry.getKeySpaceSelected,
        buildNewKeySpaceSelectedPaxos, hlookup, hgeneration, hranges, universalAssert, bind,
        Except.bind, pure, Except.pure, List.map_map, Function.comp_def]
  | @commit groupId newKeySpace hlookup =>
      have hcalls : callsFor registrations index
          (.keySpaceCommit ⟨groupId.id, newKeySpace.generation⟩) =
          [⟨.keySpaceCommit, index, .keySpaceCommit ⟨groupId.id, newKeySpace.generation⟩⟩] :=
        rfl
      rw [hcalls, runCalls_singleton]
      simp [run, commitCallback, PaxosLogEntry.getKeySpaceCommit, hlookup, universalAssert,
        bind, Except.bind, pure, Except.pure]

theorem owned_insert (groupId g : SlaveGroupId) (v : KeySpaceState) :
    owned (AList.insert groupId v ranges) g =
      if g = groupId then
        match v with
        | .keySpace keySpace => keySpace.ranges
        | .newKeySpace newKeySpace => newKeySpace.newRanges
      else owned ranges g := by
  by_cases hg : g = groupId
  · subst g
    cases v <;> simp [owned]
  · simp [owned, hg]

/-- A group gets at most one range more, of a table that no group had before. -/
theorem Advances.owned_eq (h : Advances config ranges entry ranges' sent) :
    (∀ g, owned ranges' g = owned ranges g) ∨
      ∃ groupId databaseId tableId,
        (∀ g, ∀ r ∈ owned ranges g, tableOf r ≠ (databaseId, tableId)) ∧
        ∀ g, owned ranges' g = if g = groupId then
          owned ranges g ++ [wholeTable databaseId tableId] else owned ranges g := by
  cases h with
  | @selected groupId keySpace newKeySpace databaseId tableId hlookup hnew hnewKeySpace =>
      right
      refine ⟨groupId, databaseId, tableId, hnew, ?_⟩
      intro g
      rw [owned_insert]
      split
      · rename_i hg
        subst g hnewKeySpace
        simp [owned, hlookup]
      · rfl
  | @commit groupId newKeySpace hlookup =>
      left
      intro g
      rw [owned_insert]
      split
      · rename_i hg
        subst g
        simp [owned, hlookup]
      · rfl

/-- Groups keep their ranges. -/
theorem Advances.owned_subset (h : Advances config ranges entry ranges' sent)
    (g : SlaveGroupId) : owned ranges g ⊆ owned ranges' g := by
  intro r hr
  rcases h.owned_eq with hsame | ⟨groupId, databaseId, tableId, -, howned⟩
  · rw [hsame g]
    exact hr
  · rw [howned g]
    split
    · exact List.mem_append_left _ hr
    · exact hr

/-! ## One owner for each table -/

/-- All ranges are whole tables, and no table occurs twice. -/
structure OneOwner (ranges : SlaveGroupRanges) : Prop where
  whole : ∀ g, ∀ r ∈ owned ranges g, r = wholeTable r.databaseId r.tableId
  nodup : ∀ g, ((owned ranges g).map tableOf).Nodup
  disjoint : ∀ g g', ∀ r ∈ owned ranges g, ∀ r' ∈ owned ranges g', tableOf r = tableOf r' →
    g = g'

theorem Advances.oneOwner (h : Advances config ranges entry ranges' sent)
    (hone : OneOwner ranges) : OneOwner ranges' := by
  rcases h.owned_eq with hsame | ⟨groupId, databaseId, tableId, hnew, howned⟩
  · constructor
    · intro g
      rw [hsame g]
      exact hone.whole g
    · intro g
      rw [hsame g]
      exact hone.nodup g
    · intro g g'
      rw [hsame g, hsame g']
      exact hone.disjoint g g'
  · have hmem : ∀ g, ∀ r ∈ owned ranges' g, r ∈ owned ranges g ∨
        g = groupId ∧ r = wholeTable databaseId tableId := by
      intro g r hr
      rw [howned g] at hr
      split at hr
      · rcases List.mem_append.mp hr with hold | hnew
        · exact .inl hold
        · exact .inr ⟨by assumption, List.mem_singleton.mp hnew⟩
      · exact .inl hr
    constructor
    · intro g r hr
      rcases hmem g r hr with hold | ⟨-, rfl⟩
      · exact hone.whole g r hold
      · rfl
    · intro g
      rw [howned g]
      split
      · rw [List.map_append, List.map_singleton]
        refine List.nodup_append.mpr ⟨hone.nodup g, List.nodup_singleton _, ?_⟩
        intro t ht t' ht' heq
        obtain ⟨r, hr, rfl⟩ := List.mem_map.mp ht
        rw [List.mem_singleton.mp ht'] at heq
        exact hnew g r hr heq
      · exact hone.nodup g
    · intro g g' r hr r' hr' heq
      rcases hmem g r hr with hold | ⟨rfl, rfl⟩
      · rcases hmem g' r' hr' with hold' | ⟨rfl, rfl⟩
        · exact hone.disjoint g g' r hold r' hold' heq
        · exact absurd heq (hnew g r hold)
      · rcases hmem g' r' hr' with hold' | ⟨rfl, -⟩
        · exact absurd heq.symm (hnew g' r' hold')
        · rfl

/-! ## Phases of a group -/

inductive Phase where
  | selected (generation : ℕ)
  | commit (generation : ℕ)
deriving DecidableEq

def phaseOf (groupId : SlaveGroupId) : PaxosLogEntry → Option Phase
  | .keySpaceSelected content =>
      if content.slaveGroupId = groupId.id then some (.selected content.generation) else none
  | .keySpaceCommit content =>
      if content.slaveGroupId = groupId.id then some (.commit content.generation) else none
  | _ => none

/-- Generation by generation, a selection and its commit. -/
def phase (n : ℕ) : Phase :=
  if n % 2 = 0 then .selected ((n / 2 + 1) % 2 ^ 32) else .commit ((n / 2 + 1) % 2 ^ 32)

/-- The phases that a log takes a group through. -/
def phases (groupId : SlaveGroupId) (G : List PaxosLogEntry) : List Phase :=
  G.filterMap (phaseOf groupId)

/-- The state of a group after `n` phases. -/
def InPhase (n : ℕ) : Option KeySpaceState → Prop
  | none => n = 0
  | some (.keySpace keySpace) => n % 2 = 0 ∧ keySpace.generation = n / 2 % 2 ^ 32
  | some (.newKeySpace newKeySpace) =>
      n % 2 = 1 ∧ newKeySpace.generation = (n / 2 + 1) % 2 ^ 32

theorem id_ne_of_ne {groupId g : SlaveGroupId} (hg : g ≠ groupId) : groupId.id ≠ g.id := by
  intro hid
  apply hg
  cases g
  cases groupId
  exact congrArg SlaveGroupId.mk hid.symm

theorem Advances.inPhase (h : Advances config ranges entry ranges' sent) (g : SlaveGroupId)
    {n : ℕ} (hn : InPhase n (ranges.lookup g)) :
    (phaseOf g entry = none ∧ InPhase n (ranges'.lookup g)) ∨
      phaseOf g entry = some (phase n) ∧ InPhase (n + 1) (ranges'.lookup g) := by
  cases h with
  | @selected groupId keySpace newKeySpace databaseId tableId hlookup hnew hnewKeySpace =>
      by_cases hg : g = groupId
      · subst g hnewKeySpace
        right
        rw [hlookup] at hn
        obtain ⟨heven, hgeneration⟩ := hn
        have hnext : nextGeneration keySpace.generation = (n / 2 + 1) % 2 ^ 32 := by
          rw [hgeneration, nextGeneration, Nat.mod_add_mod]
        refine ⟨?_, ?_⟩
        · simp [phaseOf, phase, buildNewKeySpaceSelectedPaxos, heven, hnext]
        · rw [AList.lookup_insert]
          refine ⟨by omega, ?_⟩
          have hhalf : (n + 1) / 2 = n / 2 := by omega
          simp only [hnext, hhalf]
      · left
        have hid := id_ne_of_ne hg
        refine ⟨by simp [phaseOf, buildNewKeySpaceSelectedPaxos, hid], ?_⟩
        rw [AList.lookup_insert_ne hg]
        exact hn
  | @commit groupId newKeySpace hlookup =>
      by_cases hg : g = groupId
      · subst g
        right
        rw [hlookup] at hn
        obtain ⟨hodd, hgeneration⟩ := hn
        refine ⟨?_, ?_⟩
        · simp [phaseOf, phase, hodd, hgeneration]
        · rw [AList.lookup_insert]
          refine ⟨by omega, ?_⟩
          have hhalf : (n + 1) / 2 = n / 2 + 1 := by omega
          simp only [hgeneration, hhalf]
      · left
        have hid := id_ne_of_ne hg
        refine ⟨by simp [phaseOf, hid], ?_⟩
        rw [AList.lookup_insert_ne hg]
        exact hn

/-! ## Selections -/

/-- A message to the first slave of a group tells of a selection in the log. -/
def Selects (config : GroupConfigManager) (G : List PaxosLogEntry) (x : Sent) : Prop :=
  ∃ content, .keySpaceSelected content ∈ G ∧
    x.message = ⟨content.newRanges, content.generation⟩ ∧
    (config.getEndpoints ⟨content.slaveGroupId⟩).head? = some x.endpointId

/-- The ranges that a group is in the progress of being assigned are those of a selection. -/
def Selecting (G : List PaxosLogEntry) (ranges : SlaveGroupRanges) : Prop :=
  ∀ g newKeySpace, ranges.lookup g = some (.newKeySpace newKeySpace) →
    .keySpaceSelected (buildNewKeySpaceSelectedPaxos g newKeySpace.newRanges
      newKeySpace.generation) ∈ G

theorem selects_sendNewKeySpace {G : List PaxosLogEntry} {groupId : SlaveGroupId}
    {newKeySpace : NewKeySpace}
    (h : .keySpaceSelected (buildNewKeySpaceSelectedPaxos groupId newKeySpace.newRanges
      newKeySpace.generation) ∈ G) :
    ∀ x ∈ sendNewKeySpace config groupId newKeySpace, Selects config G x := by
  intro x hx
  unfold sendNewKeySpace at hx
  split at hx
  · cases hx
  · rename_i endpointId rest hendpoints
    cases List.mem_singleton.mp hx
    exact ⟨_, h, rfl, by simp [buildNewKeySpaceSelectedPaxos, hendpoints]⟩

theorem Selects.append {G : List PaxosLogEntry} {x : Sent} (h : Selects config G x)
    (rest : List PaxosLogEntry) : Selects config (G ++ rest) x := by
  obtain ⟨content, hmem, hmessage, hendpoint⟩ := h
  exact ⟨content, List.mem_append_left _ hmem, hmessage, hendpoint⟩

theorem Advances.selecting (h : Advances config ranges entry ranges' sent)
    {G : List PaxosLogEntry} (hG : Selecting G ranges) :
    Selecting (G ++ [entry]) ranges' ∧ ∀ x ∈ sent, Selects config (G ++ [entry]) x := by
  cases h with
  | @selected groupId keySpace newKeySpace databaseId tableId hlookup hnew hnewKeySpace =>
      refine ⟨?_, selects_sendNewKeySpace (by simp)⟩
      intro g newKeySpace' hlookup'
      rw [UnorderedMap.lookup_insert] at hlookup'
      split at hlookup'
      · rename_i hg
        subst g
        cases hlookup'
        simp
      · exact List.mem_append_left _ (hG g newKeySpace' hlookup')
  | @commit groupId newKeySpace hlookup =>
      refine ⟨?_, by simp⟩
      intro g newKeySpace' hlookup'
      rw [UnorderedMap.lookup_insert] at hlookup'
      split at hlookup'
      · cases hlookup'
      · exact List.mem_append_left _ (hG g newKeySpace' hlookup')

/-! ## Histories -/

/-- The masters' callbacks have run on all entries of `G`. -/
abbrev History (groups : List SlaveGroup) (G : List PaxosLogEntry) (ranges : SlaveGroupRanges)
    (sent : List Sent) : Prop :=
  Replayed (run (DataMaster.registerConfigs groups)) registrations
    (DataMaster.registerRanges groups) G ranges sent

/-- What a master has checked of an entry that it proposes, with respect to the entries
before it. -/
def Admissible (groups : List SlaveGroup) (before : List PaxosLogEntry)
    (entry : PaxosLogEntry) : Prop :=
  ∀ ranges sent, History groups before ranges sent →
    ∃ ranges' sent', Advances (DataMaster.registerConfigs groups) ranges entry ranges' sent'

structure HistoryInv (groups : List SlaveGroup) (G : List PaxosLogEntry)
    (ranges : SlaveGroupRanges) (sent : List Sent) : Prop where
  oneOwner : OneOwner ranges
  phases : ∀ g, phases g G = (List.range (phases g G).length).map phase ∧
    InPhase (phases g G).length (ranges.lookup g)
  selecting : Selecting G ranges
  sent : ∀ x ∈ sent, Selects (DataMaster.registerConfigs groups) G x

variable {groups : List SlaveGroup} {G : List PaxosLogEntry}

theorem lookup_registerRanges (groups : List SlaveGroup) (g : SlaveGroupId) :
    (DataMaster.registerRanges groups).lookup g = none ∨
      (DataMaster.registerRanges groups).lookup g = some (.keySpace ⟨[], 0⟩) := by
  suffices h : ∀ m : SlaveGroupRanges,
      (m.lookup g = none ∨ m.lookup g = some (.keySpace ⟨[], 0⟩)) →
      (groups.foldl (fun m group => setFirstConfig m group.groupId) m).lookup g = none ∨
        (groups.foldl (fun m group => setFirstConfig m group.groupId) m).lookup g =
          some (.keySpace ⟨[], 0⟩) from h ∅ (.inl rfl)
  induction groups with
  | nil => exact fun _ hm => hm
  | cons group groups ih =>
      intro m hm
      rw [List.foldl_cons]
      apply ih
      rw [setFirstConfig, UnorderedMap.lookup_insertNew]
      split
      · rename_i hg
        subst g
        rcases hm with hm | hm <;> simp [hm]
      · exact hm

theorem owned_registerRanges (groups : List SlaveGroup) (g : SlaveGroupId) :
    owned (DataMaster.registerRanges groups) g = [] := by
  rcases lookup_registerRanges groups g with h | h <;> simp [owned, h]

theorem historyInv_nil : HistoryInv groups [] (DataMaster.registerRanges groups) [] := by
  constructor
  · constructor <;> simp [owned_registerRanges]
  · intro g
    refine ⟨rfl, ?_⟩
    rcases lookup_registerRanges groups g with h | h <;> simp [h, InPhase, phases]
  · intro g newKeySpace hlookup
    rcases lookup_registerRanges groups g with h | h <;> rw [h] at hlookup <;> cases hlookup
  · simp

theorem HistoryInv.concat {sent' : List Sent} (h : HistoryInv groups G ranges sent)
    (hadvances : Advances (DataMaster.registerConfigs groups) ranges entry ranges' sent') :
    HistoryInv groups (G ++ [entry]) ranges' (sent ++ sent') := by
  obtain ⟨hselecting, hsent⟩ := hadvances.selecting h.selecting
  constructor
  · exact hadvances.oneOwner h.oneOwner
  · intro g
    obtain ⟨hphases, hin⟩ := h.phases g
    simp only [Masters.phases, List.filterMap_append, List.filterMap_cons, List.filterMap_nil]
    rcases hadvances.inPhase g hin with ⟨hnone, hin'⟩ | ⟨hsome, hin'⟩
    · simp only [hnone, List.append_nil]
      exact ⟨hphases, hin'⟩
    · simp only [hsome, List.length_append, List.length_singleton, List.range_succ,
        List.map_append, List.map_singleton]
      exact ⟨congrArg (· ++ _) hphases, hin'⟩
  · exact hselecting
  · intro x hx
    rcases List.mem_append.mp hx with hx | hx
    · exact (h.sent x hx).append _
    · exact hsent x hx

/-- The key spaces after each prefix of a log whose entries were all admissible. -/
theorem history_take (hG : ∀ k e, G[k]? = some e → Admissible groups (G.take k) e) :
    ∀ k ≤ G.length, ∃ ranges sent, History groups (G.take k) ranges sent ∧
      HistoryInv groups (G.take k) ranges sent := by
  apply replayed_take historyInv_nil
  intro k e ranges sent he hhistory hinv
  obtain ⟨ranges', sent', hadvances⟩ := hG k e he ranges sent hhistory
  exact ⟨ranges', sent', hadvances.runCalls k, hinv.concat hadvances⟩

/-- Groups never lose a range. -/
theorem owned_subset_of_history (hG : ∀ k e, G[k]? = some e → Admissible groups (G.take k) e)
    {k k' : ℕ} (hk : k ≤ k') (hk' : k' ≤ G.length) {sent' : List Sent}
    (h : History groups (G.take k) ranges sent) (h' : History groups (G.take k') ranges' sent')
    (g : SlaveGroupId) : owned ranges g ⊆ owned ranges' g := by
  induction hk generalizing ranges' sent' with
  | refl =>
      obtain ⟨rfl, -⟩ := h.unique h'
      exact fun _ hr => hr
  | @step k' hk ih =>
      obtain ⟨ranges₁, sent₁, hhistory, -⟩ := history_take hG k' (by omega)
      have he : G[k']? = some G[k'] := List.getElem?_eq_getElem (by omega)
      obtain ⟨ranges₂, sent₂, hadvances⟩ := hG k' _ he ranges₁ sent₁ hhistory
      have hlength : (G.take k').length = k' := List.length_take_of_le (by omega)
      have htake : G.take (k' + 1) = G.take k' ++ [G[k']] := by
        rw [List.take_add_one, he]
        rfl
      have hconcat := hhistory.concat (hadvances.runCalls _)
      rw [← htake] at hconcat
      obtain ⟨rfl, -⟩ := h'.unique hconcat
      exact fun _ hr => hadvances.owned_subset g (ih (by omega) hhistory hr)

end UniversalDB.Masters
