import UniversalDB.Verification.Masters.Selections

/-! # The key spaces of the masters -/

namespace UniversalDB.Masters

open KeySpaceManager

variable {ι : Type} {groups : List SlaveGroup} {trace : List (Event ι)} {s : State ι}

/-- No master ever stops, neither by an assertion of a callback nor otherwise, and the
entries for a group are a selection and its commit, generation by generation. -/
theorem selected_then_committed [DecidableEq ι] (h : (machine ι groups).system.Run trace s) :
    (∀ i, (s.masters i).exception = none) ∧
      ∀ groupId, phases groupId s.agreedLog.entries =
        (List.range (phases groupId s.agreedLog.entries).length).map phase := by
  have hinv := inv_of_run h
  exact ⟨fun i => (hinv.masters i).live, hinv.phases_eq⟩

/-- Two groups with a slave each. -/
def twoGroups : List SlaveGroup :=
  [⟨⟨"g"⟩, [⟨"a", 0⟩], by simp⟩, ⟨⟨"h"⟩, [⟨"b", 0⟩], by simp⟩]

/-- Two masters propose the same table for different groups, and the first proposal is
chosen and committed. The slave reports twice. -/
def assignActions : List (Action ℕ) :=
  [.findKey 0 ⟨"c", 0⟩ ⟨"db", "t", "k"⟩, .findKey 1 ⟨"d", 0⟩ ⟨"db", "t", "l"⟩,
    .runFindKey 0 [⟨⟨"g"⟩, .keySpace ⟨[], 0⟩⟩, ⟨⟨"h"⟩, .keySpace ⟨[], 0⟩⟩],
    .runFindKey 1 [⟨⟨"h"⟩, .keySpace ⟨[], 0⟩⟩, ⟨⟨"g"⟩, .keySpace ⟨[], 0⟩⟩],
    .choose 0, .learn 0 0, .learn 1 0, .keySpaceChanged 0 ⟨"a", 0⟩ ⟨1⟩,
    .keySpaceChanged 1 ⟨"a", 0⟩ ⟨1⟩,
    .runKeySpaceChanged 0 [⟨⟨"g"⟩, .config [⟨"a", 0⟩] 0⟩, ⟨⟨"h"⟩, .config [⟨"b", 0⟩] 0⟩],
    .runKeySpaceChanged 1 [⟨⟨"h"⟩, .config [⟨"b", 0⟩] 0⟩, ⟨⟨"g"⟩, .config [⟨"a", 0⟩] 0⟩],
    .choose 2, .learn 0 1, .learn 1 1,
    .runFindKey 0 [⟨⟨"h"⟩, .keySpace ⟨[], 0⟩⟩,
      ⟨⟨"g"⟩, .keySpace ⟨[⟨"db", "t", none, none⟩], 1⟩⟩],
    .runFindKey 1 [⟨⟨"g"⟩, .keySpace ⟨[⟨"db", "t", none, none⟩], 1⟩⟩,
      ⟨⟨"h"⟩, .keySpace ⟨[], 0⟩⟩]]

theorem selected_then_committed_twice :
    ∃ trace s, (machine ℕ twoGroups).system.Run trace s ∧ (s.masters 0).exception = none ∧
      phases ⟨"g"⟩ s.agreedLog.entries = [.selected 1, .commit 1] := by
  obtain ⟨trace, s, hrun, hlength⟩ := (machine ℕ twoGroups).exists_run assignActions
    (p := fun r => (phases ⟨"g"⟩ r.2.agreedLog.entries).length = 2) (by decide +kernel)
  simp only at hlength
  obtain ⟨hlive, hphases⟩ := selected_then_committed hrun
  refine ⟨trace, s, hrun, hlive 0, ?_⟩
  rw [hphases, hlength]
  rfl

/-! ## One owner -/

theorem Owns.unique (h : Inv groups trace s) {g g' : SlaveGroupId} {table : String × String}
    (hg : Owns groups s.agreedLog.entries g table)
    (hg' : Owns groups s.agreedLog.entries g' table) : g = g' := by
  obtain ⟨k, ranges, sent, hk, hhistory, r, hr, htable⟩ := hg
  obtain ⟨k', ranges', sent', hk', hhistory', r', hr', htable'⟩ := hg'
  -- the later of the two histories still has both ranges
  obtain ⟨last, hle, hle', hlast⟩ : ∃ last, k ≤ last ∧ k' ≤ last ∧
      last ≤ s.agreedLog.entries.length := ⟨max k k', by omega, by omega, by omega⟩
  obtain ⟨ranges'', sent'', hhistory'', hinv⟩ := h.history hlast
  exact hinv.oneOwner.disjoint g g' r
    (owned_subset_of_history h.pinned.entries hle hlast hhistory hhistory'' g hr) r'
    (owned_subset_of_history h.pinned.entries hle' hlast hhistory' hhistory'' g' hr')
    (htable.trans htable'.symm)

/-- At every master no table is in two ranges, and whatever masters have ever answered
about the keys of a table, they have named the same group. -/
theorem one_owner_for_ever [DecidableEq ι] (h : (machine ι groups).system.Run trace s) :
    (∀ i, OneOwner (s.masters i).slaveGroupRanges) ∧
      ∀ i i' endpointId endpointId' message message' response response',
        .responded i endpointId message response ∈ trace →
        .responded i' endpointId' message' response' ∈ trace →
        response.errorCode ≠ .ERROR → response'.errorCode ≠ .ERROR →
        message.databaseId = message'.databaseId → message.tableId = message'.tableId →
        response.slaveGroupId = response'.slaveGroupId := by
  have hinv := inv_of_run h
  constructor
  · intro i
    obtain ⟨m, sent, -, -, -, hhistory⟩ := hinv.master_history i
    exact hhistory.oneOwner
  · intro i i' endpointId endpointId' message message' response response' hmem hmem' hcode
      hcode' hdatabase htable
    have howns := hinv.events _ hmem hcode
    have howns' := hinv.events _ hmem' hcode'
    rw [hdatabase, htable] at howns
    exact congrArg SlaveGroupId.id (howns.unique hinv howns')

theorem one_owner_for_ever_twice :
    ∃ trace s, (machine ℕ twoGroups).system.Run trace s ∧
      OneOwner (s.masters 1).slaveGroupRanges ∧
      ∃ response response',
        .responded 0 ⟨"c", 0⟩ ⟨"db", "t", "k"⟩ response ∈ trace ∧
        .responded 1 ⟨"d", 0⟩ ⟨"db", "t", "l"⟩ response' ∈ trace ∧
        response.slaveGroupId = response'.slaveGroupId := by
  obtain ⟨trace, s, hrun, hmem, hmem'⟩ := (machine ℕ twoGroups).exists_run assignActions
    (p := fun r => .responded 0 ⟨"c", 0⟩ ⟨"db", "t", "k"⟩ ⟨"g", .UNSET⟩ ∈ r.1 ∧
      .responded 1 ⟨"d", 0⟩ ⟨"db", "t", "l"⟩ ⟨"g", .UNSET⟩ ∈ r.1) (by decide +kernel)
  obtain ⟨hone, hsame⟩ := one_owner_for_ever hrun
  exact ⟨trace, s, hrun, hone 1, _, _, hmem, hmem',
    hsame _ _ _ _ _ _ _ _ hmem hmem' (by decide) (by decide) rfl rfl⟩

end UniversalDB.Masters
