import UniversalDB.Model.Database
import UniversalDB.Verification.Masters.Selections

/-! # Slave logs that follow the selections of a master log -/

namespace UniversalDB.Database

open PaxosLog Masters

def registrations : List (EntryContentCase × Unit) := [(.kKeySpaceChanged, ())]

theorem new_paxosLog {ι : Type} :
    (Slave.new : Slave ι).paxosLog = PaxosLog.register registrations := rfl

/-- The entry of a slave log for a selection. -/
def changedBy (content : NewKeySpaceSelected) : PaxosLogEntry :=
  .keySpaceChanged ⟨content.newRanges, content.generation⟩

/-- The entry of a slave log at each index is for the selection of the same number. -/
def Follows (M : List PaxosLogEntry) (groupId : SlaveGroupId) (before : List PaxosLogEntry)
    (entry : PaxosLogEntry) : Prop :=
  ∃ content, (selections groupId M)[before.length]? = some content ∧ entry = changedBy content

/-- Selections are numbered from 1. -/
def NumberedSelections (M : List PaxosLogEntry) : Prop :=
  ∀ groupId (k : ℕ) content, (selections groupId M)[k]? = some content →
    content.generation = (k + 1) % 2 ^ 32

variable {M G : List PaxosLogEntry} {groupId : SlaveGroupId}

theorem Follows.append {before : List PaxosLogEntry} {entry : PaxosLogEntry}
    (h : Follows M groupId before entry) (rest : List PaxosLogEntry) :
    Follows (M ++ rest) groupId before entry := by
  obtain ⟨content, hcontent, hentry⟩ := h
  refine ⟨content, ?_, hentry⟩
  rw [selections, List.filterMap_append, ← selections,
    List.getElem?_append_left (List.getElem?_eq_some_iff.mp hcontent).1]
  exact hcontent

theorem length_le_selections
    (hG : ∀ k e, G[k]? = some e → Follows M groupId (G.take k) e) :
    G.length ≤ (selections groupId M).length := by
  cases hlength : G.length with
  | zero => exact Nat.zero_le _
  | succ k =>
      have he : G[k]? = some G[k] := List.getElem?_eq_getElem (by omega)
      obtain ⟨content, hcontent, -⟩ := hG k _ he
      rw [List.length_take_of_le (by omega)] at hcontent
      exact (List.getElem?_eq_some_iff.mp hcontent).1

/-! ## Callbacks -/

/-- A slave has run its callback on all entries of `G`. -/
abbrev SlaveHistory (G : List PaxosLogEntry) (m : SlaveKeySpaceManager)
    (sent : List Message.KeySpaceChanged) : Prop :=
  Replayed SlaveKeySpaceManager.run registrations .new G m sent

/-- The generation of a slave counts the entries that it has applied, and it has told of
no other generations. -/
structure SlaveHistoryInv (G : List PaxosLogEntry) (m : SlaveKeySpaceManager)
    (sent : List Message.KeySpaceChanged) : Prop where
  generation : m.generation = G.length % 2 ^ 32
  sent : ∀ x ∈ sent, ∃ k < G.length, x.generation = (k + 1) % 2 ^ 32

theorem runCalls_changedBy {m : SlaveKeySpaceManager} {content : NewKeySpaceSelected}
    (h : content.generation = SlaveKeySpaceManager.nextGeneration m.generation) (index : ℕ) :
    ∃ m', runCalls SlaveKeySpaceManager.run m
        (callsFor registrations index (changedBy content)) =
          .ok (m', [⟨content.generation⟩]) ∧ m'.generation = content.generation := by
  have hcalls : callsFor registrations index (changedBy content) =
      [⟨(), index, changedBy content⟩] := rfl
  rw [hcalls, runCalls_singleton]
  simp [SlaveKeySpaceManager.run, SlaveKeySpaceManager.callback, changedBy,
    PaxosLogEntry.getKeySpaceChanged, h, universalAssert, bind, Except.bind, pure, Except.pure]

/-- No assertion fails in a slave log that follows the selections. -/
theorem slaveHistory_take (hM : NumberedSelections M)
    (hG : ∀ k e, G[k]? = some e → Follows M groupId (G.take k) e) :
    ∀ k ≤ G.length, ∃ m sent, SlaveHistory (G.take k) m sent ∧
      SlaveHistoryInv (G.take k) m sent := by
  apply replayed_take
  · exact ⟨rfl, by simp⟩
  · intro k e m sent he hhistory hinv
    obtain ⟨content, hcontent, rfl⟩ := hG k e he
    have hlength : (G.take k).length = k :=
      List.length_take_of_le (List.getElem?_eq_some_iff.mp he).1.le
    rw [hlength] at hcontent
    have hgeneration := hM groupId k content hcontent
    have hnext : content.generation = SlaveKeySpaceManager.nextGeneration m.generation := by
      rw [hgeneration, SlaveKeySpaceManager.nextGeneration, hinv.generation, hlength,
        Nat.mod_add_mod]
    obtain ⟨m', hrun, hm'⟩ := runCalls_changedBy hnext k
    refine ⟨m', _, hrun, ?_, ?_⟩
    · rw [hm', hgeneration, List.length_append, hlength, List.length_singleton]
    · intro x hx
      rw [List.length_append, hlength, List.length_singleton]
      rcases List.mem_append.mp hx with hx | hx
      · obtain ⟨j, hj, hgen⟩ := hinv.sent x hx
        exact ⟨j, by omega, hgen⟩
      · rw [List.mem_singleton.mp hx]
        exact ⟨k, by omega, hgeneration⟩

/-! ## Groups -/

variable {groups : List SlaveGroup}

/-- No slave is in two groups. -/
def DisjointSlaves (groups : List SlaveGroup) : Prop :=
  ∀ group ∈ groups, ∀ group' ∈ groups, ∀ slave ∈ group.slaveEndpoints,
    slave ∈ group'.slaveEndpoints → group.groupId = group'.groupId

instance : Decidable (DisjointSlaves groups) :=
  inferInstanceAs (Decidable (∀ group ∈ groups, ∀ group' ∈ groups,
    ∀ slave ∈ group.slaveEndpoints, slave ∈ group'.slaveEndpoints →
      group.groupId = group'.groupId))

theorem mem_registerConfigs {slave : EndpointId}
    (h : slave ∈ (DataMaster.registerConfigs groups).getEndpoints groupId) :
    ∃ group ∈ groups, group.groupId = groupId ∧ slave ∈ group.slaveEndpoints := by
  suffices hfold : ∀ m : GroupConfigManager,
      slave ∈ GroupConfigManager.getEndpoints
        (groups.foldl (fun m g => m.setFirstConfig g.groupId g.slaveEndpoints) m) groupId →
      slave ∈ m.getEndpoints groupId ∨
        ∃ group ∈ groups, group.groupId = groupId ∧ slave ∈ group.slaveEndpoints by
    rcases hfold ∅ h with hempty | hgroup
    · simp [GroupConfigManager.getEndpoints] at hempty
    · exact hgroup
  clear h
  induction groups with
  | nil => exact fun m hm => .inl hm
  | cons group groups ih =>
      intro m hm
      rw [List.foldl_cons] at hm
      rcases ih _ hm with hfirst | ⟨group', hgroup', hid, hslave⟩
      · rw [GroupConfigManager.getEndpoints, GroupConfigManager.setFirstConfig,
          UnorderedMap.lookup_insertNew] at hfirst
        by_cases hid : groupId = group.groupId
        · subst groupId
          cases hlookup : m.lookup group.groupId with
          | none =>
              right
              refine ⟨group, List.mem_cons_self, rfl, ?_⟩
              simpa [hlookup, ConfigState.slaves] using hfirst
          | some config =>
              left
              simpa [GroupConfigManager.getEndpoints, hlookup] using hfirst
        · rw [if_neg hid] at hfirst
          exact .inl hfirst
      · exact .inr ⟨group', List.mem_cons_of_mem _ hgroup', hid, hslave⟩

theorem groupOf_eq (hdisjoint : DisjointSlaves groups) {slave : EndpointId}
    (h : slave ∈ (DataMaster.registerConfigs groups).getEndpoints groupId) :
    groupOf groups slave = some groupId := by
  obtain ⟨group, hgroup, hid, hslave⟩ := mem_registerConfigs h
  unfold groupOf
  split
  · rename_i group' hfind
    have hslave' := List.find?_some hfind
    rw [decide_eq_true_eq] at hslave'
    rw [← hid, hdisjoint group' (List.mem_of_find?_eq_some hfind) group hgroup slave hslave'
      hslave]
  · rename_i hfind
    rw [List.find?_eq_none] at hfind
    exact absurd (decide_eq_true hslave) (hfind group hgroup)

/-- A selection that a slave is told of is one for its group. -/
theorem selection_of_selects (hdisjoint : DisjointSlaves groups) {x : KeySpaceManager.Sent}
    (h : Selects (DataMaster.registerConfigs groups) M x)
    (hgroup : groupOf groups x.endpointId = some groupId) :
    ∃ k : ℕ, ∃ content, (selections groupId M)[k]? = some content ∧
      x.message = ⟨content.newRanges, content.generation⟩ := by
  obtain ⟨content, hmem, hmessage, hendpoint⟩ := h
  have hslave := List.mem_of_mem_head? (Option.mem_def.mpr hendpoint)
  rw [groupOf_eq hdisjoint hslave] at hgroup
  cases hgroup
  have hselection : content ∈ selections ⟨content.slaveGroupId⟩ M :=
    mem_selections.mpr ⟨hmem, rfl⟩
  obtain ⟨k, hk⟩ := List.mem_iff_getElem?.mp hselection
  exact ⟨k, content, hk, hmessage⟩

end UniversalDB.Database
