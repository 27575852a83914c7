import UniversalDB.Verification.Masters.Invariant

/-! # The selections for a group in a master log -/

namespace UniversalDB.Masters

open KeySpaceManager

variable {ι : Type} {groups : List SlaveGroup} {trace : List (Event ι)} {s : State ι}

theorem Inv.phases_eq (h : Inv groups trace s) (groupId : SlaveGroupId) :
    phases groupId s.agreedLog.entries =
      (List.range (phases groupId s.agreedLog.entries).length).map phase := by
  obtain ⟨ranges, sent, -, hinv⟩ := h.history le_rfl
  rw [List.take_length] at hinv
  exact (hinv.phases groupId).1

def selectionOf (groupId : SlaveGroupId) : PaxosLogEntry → Option NewKeySpaceSelected
  | .keySpaceSelected content =>
      if content.slaveGroupId = groupId.id then some content else none
  | _ => none

def selections (groupId : SlaveGroupId) (G : List PaxosLogEntry) : List NewKeySpaceSelected :=
  G.filterMap (selectionOf groupId)

theorem selectionOf_eq_some {groupId : SlaveGroupId} {entry : PaxosLogEntry}
    {content : NewKeySpaceSelected} (h : selectionOf groupId entry = some content) :
    entry = .keySpaceSelected content ∧ groupId = ⟨content.slaveGroupId⟩ := by
  cases entry with
  | keySpaceSelected content' =>
      simp only [selectionOf] at h
      split at h
      · rename_i hid
        cases h
        exact ⟨rfl, by rw [hid]⟩
      · cases h
  | _ => cases h

theorem mem_selections {groupId : SlaveGroupId} {G : List PaxosLogEntry}
    {content : NewKeySpaceSelected} :
    content ∈ selections groupId G ↔
      .keySpaceSelected content ∈ G ∧ content.slaveGroupId = groupId.id := by
  rw [selections, List.mem_filterMap]
  constructor
  · rintro ⟨entry, hentry, hcontent⟩
    cases entry with
    | keySpaceSelected content' =>
        simp only [selectionOf] at hcontent
        split at hcontent <;> cases hcontent
        exact ⟨hentry, by assumption⟩
    | _ => cases hcontent
  · rintro ⟨hmem, hid⟩
    exact ⟨_, hmem, by simp [selectionOf, hid]⟩

def Phase.selection : Phase → Option ℕ
  | selected generation => some generation
  | commit _ => none

theorem filterMap_selection_phases (groupId : SlaveGroupId) (G : List PaxosLogEntry) :
    (phases groupId G).filterMap Phase.selection =
      (selections groupId G).map NewKeySpaceSelected.generation := by
  rw [phases, selections, List.filterMap_filterMap, List.map_filterMap]
  apply List.filterMap_congr
  intro entry _
  cases entry with
  | keySpaceSelected content =>
      simp only [phaseOf, selectionOf]
      split <;> rfl
  | keySpaceCommit content =>
      simp only [phaseOf, selectionOf]
      split <;> rfl
  | _ => rfl

theorem filterMap_selection_phase (n : ℕ) :
    ((List.range n).map phase).filterMap Phase.selection =
      (List.range ((n + 1) / 2)).map fun k => (k + 1) % 2 ^ 32 := by
  induction n with
  | zero => rfl
  | succ n ih =>
      rw [List.range_succ, List.map_append, List.filterMap_append, ih, List.map_singleton]
      by_cases heven : n % 2 = 0
      · have hlength : (n + 1 + 1) / 2 = (n + 1) / 2 + 1 := by omega
        have hhalf : (n + 1) / 2 = n / 2 := by omega
        rw [hlength, List.range_succ, List.map_append, hhalf]
        simp [phase, heven, Phase.selection]
      · have hlength : (n + 1 + 1) / 2 = (n + 1) / 2 := by omega
        rw [hlength]
        simp [phase, heven, Phase.selection]

/-- The selections for a group are numbered from 1. -/
theorem Inv.selection_generation (h : Inv groups trace s) {groupId : SlaveGroupId} {k : ℕ}
    {content : NewKeySpaceSelected}
    (hcontent : (selections groupId s.agreedLog.entries)[k]? = some content) :
    content.generation = (k + 1) % 2 ^ 32 := by
  have hgenerations := filterMap_selection_phases groupId s.agreedLog.entries
  rw [h.phases_eq groupId, filterMap_selection_phase] at hgenerations
  have hget := congrArg (·[k]?) hgenerations
  simp only [List.getElem?_map, hcontent, Option.map_some] at hget
  obtain ⟨j, hj, hgeneration⟩ := Option.map_eq_some_iff.mp hget
  obtain ⟨hlt, rfl⟩ := List.getElem?_eq_some_iff.mp hj
  rw [List.getElem_range] at hgeneration
  exact hgeneration.symm

/-! ## Ranges of a selection -/

/-- A group gets one range with each selection. -/
theorem Advances.length_owned {config : GroupConfigManager} {ranges ranges' : SlaveGroupRanges}
    {entry : PaxosLogEntry} {sent : List Sent}
    (h : Advances config ranges entry ranges' sent) (g : SlaveGroupId) :
    (owned ranges' g).length = (owned ranges g).length + (selections g [entry]).length := by
  cases h with
  | @selected groupId keySpace newKeySpace databaseId tableId hlookup hnew hnewKeySpace =>
      rw [owned_insert]
      by_cases hg : g = groupId
      · subst g hnewKeySpace
        simp [owned, hlookup, selections, selectionOf, buildNewKeySpaceSelectedPaxos]
      · simp [hg, selections, selectionOf, buildNewKeySpaceSelectedPaxos, id_ne_of_ne hg]
  | @commit groupId newKeySpace hlookup =>
      rw [owned_insert]
      by_cases hg : g = groupId
      · subst g
        simp [owned, hlookup, selections, selectionOf]
      · simp [hg, selections, selectionOf]

/-- The element of a filtered list at a position, with the elements before it. -/
theorem exists_getElem?_of_filterMap {α β : Type*} {f : α → Option β} {l : List α} {k : ℕ}
    {b : β} (h : (l.filterMap f)[k]? = some b) :
    ∃ j a, l[j]? = some a ∧ f a = some b ∧ ((l.take j).filterMap f).length = k := by
  induction l generalizing k with
  | nil => cases h
  | cons a l ih =>
      cases ha : f a with
      | none =>
          rw [List.filterMap_cons_none ha] at h
          obtain ⟨j, a', hj, ha', hlength⟩ := ih h
          refine ⟨j + 1, a', hj, ha', ?_⟩
          rw [List.take_succ_cons, List.filterMap_cons_none ha, hlength]
      | some b' =>
          rw [List.filterMap_cons_some ha] at h
          cases k with
          | zero =>
              cases h
              exact ⟨0, a, rfl, ha, rfl⟩
          | succ k =>
              obtain ⟨j, a', hj, ha', hlength⟩ := ih h
              refine ⟨j + 1, a', hj, ha', ?_⟩
              rw [List.take_succ_cons, List.filterMap_cons_some ha, List.length_cons, hlength]

theorem Inv.length_owned (h : Inv groups trace s) : ∀ k ≤ s.agreedLog.entries.length,
    ∃ ranges sent, History groups (s.agreedLog.entries.take k) ranges sent ∧
      ∀ g, (owned ranges g).length = (selections g (s.agreedLog.entries.take k)).length := by
  apply PaxosLog.replayed_take (I := fun G ranges _ =>
    ∀ g, (owned ranges g).length = (selections g G).length)
  · intro g
    rw [owned_registerRanges]
    rfl
  · intro k entry ranges sent hentry hhistory hcount
    obtain ⟨ranges', sent', hadvances⟩ := h.pinned.entries k entry hentry ranges sent hhistory
    refine ⟨ranges', sent', hadvances.runCalls k, ?_⟩
    intro g
    rw [hadvances.length_owned, hcount, selections, selections, selections,
      List.filterMap_append, List.length_append]

/-- A selection has as many ranges as its number. -/
theorem Inv.length_newRanges (h : Inv groups trace s) {groupId : SlaveGroupId} {k : ℕ}
    {content : NewKeySpaceSelected}
    (hcontent : (selections groupId s.agreedLog.entries)[k]? = some content) :
    content.newRanges.length = k + 1 := by
  obtain ⟨j, entry, hentry, hselection, hlength⟩ := exists_getElem?_of_filterMap hcontent
  have hlt := (List.getElem?_eq_some_iff.mp hentry).1
  obtain ⟨ranges, sent, hhistory, hcount⟩ := h.length_owned j hlt.le
  obtain ⟨ranges', sent', hadvances⟩ := h.pinned.entries j entry hentry ranges sent hhistory
  have howned := hadvances.length_owned groupId
  obtain ⟨rfl, hid⟩ := selectionOf_eq_some hselection
  have hone : (selections groupId [.keySpaceSelected content]).length = 1 := by
    simp [selections, hselection]
  have hranges : (owned ranges' groupId).length = content.newRanges.length := by
    cases hadvances with
    | @selected g keySpace newKeySpace databaseId tableId hlookup hnew hnewKeySpace =>
        obtain rfl : groupId = g := hid
        simp [owned_insert, buildNewKeySpaceSelectedPaxos]
  rw [← hranges, howned, hcount groupId, hone, selections, hlength]

end UniversalDB.Masters
