import UniversalDB.Verification.Database.Runs

/-! # Master and slave key spaces agree generation by generation -/

namespace UniversalDB.Database

open Masters

variable {ι : Type} {groups : List SlaveGroup} {trace : List (Masters.Event ι)} {s : State ι}

/-- No slave ever stops, the log of a group holds the selections for the group one after
the other, numbered from 1 and with their ranges, and the masters commit only what the
group has in its log. -/
structure GenerationsAgree (groups : List SlaveGroup) (s : State ι) : Prop where
  live : ∀ slave groupId, groupOf groups slave = some groupId →
    (s.slaves slave).exception = none
  slaveLogs : ∀ groupId (k : ℕ) entry, (s.slaveLogs groupId).entries[k]? = some entry →
    ∃ content, (selections groupId s.masters.agreedLog.entries)[k]? = some content ∧
      content.generation = k + 1 ∧ entry = .keySpaceChanged ⟨content.newRanges, k + 1⟩
  commits : ∀ content, .keySpaceCommit content ∈ s.masters.agreedLog.entries →
    ∃ k ranges, content.generation = k + 1 ∧
      (s.slaveLogs ⟨content.slaveGroupId⟩).entries[k]? =
        some (.keySpaceChanged ⟨ranges, content.generation⟩)

/-- What fits in a protobuf message: a repeated field has fewer than `2 ^ 31` elements, as its
size is an `int`. -/
def ProtobufCapacity (s : State ι) : Prop :=
  ∀ content, .keySpaceSelected content ∈ s.masters.agreedLog.entries →
    content.newRanges.length < 2 ^ 31

/-- A selection has as many ranges as its number, so the messages are full before a
generation is out of range. -/
theorem ProtobufCapacity.bounded (hcapacity : ProtobufCapacity s)
    (hmasters : Masters.Inv groups trace s.masters) : Bounded s := by
  intro groupId
  by_contra hlong
  have hlt : 2 ^ 31 - 1 < (selections groupId s.masters.agreedLog.entries).length := by omega
  have hcontent := List.getElem?_eq_getElem hlt
  have hlength := hmasters.length_newRanges hcontent
  have hfits := hcapacity _ (mem_selections.mp (List.getElem_mem hlt)).1
  omega

/-- Master and slave key spaces agree. -/
theorem generations_agree [DecidableEq ι] (hdisjoint : DisjointSlaves groups)
    (h : (machine ι groups).system.Run trace s) (hcapacity : ProtobufCapacity s) :
    GenerationsAgree groups s := by
  have hbounded := hcapacity.bounded (Masters.inv_of_run (masters_run h))
  have hinv := inv_of_run hdisjoint h hbounded
  have hmasters := Masters.inv_of_run (masters_run h)
  have hlog : ∀ groupId (k : ℕ) entry, (s.slaveLogs groupId).entries[k]? = some entry →
      ∃ content, (selections groupId s.masters.agreedLog.entries)[k]? = some content ∧
        content.generation = k + 1 ∧
        entry = .keySpaceChanged ⟨content.newRanges, k + 1⟩ := by
    intro groupId k entry hentry
    obtain ⟨content, hcontent, rfl⟩ := (hinv.pinned groupId).entries k entry hentry
    rw [List.length_take_of_le (List.getElem?_eq_some_iff.mp hentry).1.le] at hcontent
    have hnumber : content.generation = k + 1 := by
      have hk := (List.getElem?_eq_some_iff.mp hcontent).1
      have hlt := hbounded groupId
      rw [hmasters.selection_generation hcontent, Nat.mod_eq_of_lt (by omega)]
    exact ⟨content, hcontent, hnumber, by rw [changedBy, hnumber]⟩
  refine ⟨fun slave groupId hgroup => (hinv.slaves slave groupId hgroup).live, hlog, ?_⟩
  intro content hcontent
  obtain ⟨i, slave, hreceived, hslave⟩ := hmasters.entries _ hcontent
  obtain ⟨groupId, k, hk, hgroup, hgeneration⟩ := hinv.received i slave _ hreceived
  rw [groupOf_eq hdisjoint hslave] at hgroup
  cases hgroup
  have hentry := List.getElem?_eq_getElem hk
  obtain ⟨selection, -, -, hchanged⟩ := hlog _ k _ hentry
  have hlength := hinv.bounded hbounded ⟨content.slaveGroupId⟩
  have hnumber : content.generation = k + 1 :=
    hgeneration.trans (Nat.mod_eq_of_lt (by omega))
  refine ⟨k, selection.newRanges, hnumber, ?_⟩
  rw [hentry, hchanged, hnumber]

/-- A selection that arrives twice, and its commit by a master that is told of the new key
space by the second reply. -/
def handshakeActions : List (Action ℕ) :=
  [.master (.findKey 0 ⟨"c", 0⟩ ⟨"db", "t", "k"⟩),
    .master (.runFindKey 0 [⟨⟨"g"⟩, .keySpace ⟨[], 0⟩⟩, ⟨⟨"h"⟩, .keySpace ⟨[], 0⟩⟩]),
    .master (.choose 0), .master (.learn 0 0), .deliverToSlave 0, .deliverToSlave 0,
    .run ⟨"a", 0⟩, .choose ⟨"g"⟩ 0, .learn ⟨"a", 0⟩ 0 1, .run ⟨"a", 0⟩, .deliverToMaster 0,
    .deliverToMaster 1, .master (.runKeySpaceChanged 0
      [⟨⟨"h"⟩, .config [⟨"b", 0⟩] 0⟩, ⟨⟨"g"⟩, .config [⟨"a", 0⟩] 0⟩]), .master (.choose 1)]

theorem generations_agree_handshake :
    ∃ trace s, (machine ℕ twoGroups).system.Run trace s ∧
      .keySpaceCommit ⟨"g", 1⟩ ∈ s.masters.agreedLog.entries ∧
      ∃ content, (selections ⟨"g"⟩ s.masters.agreedLog.entries)[0]? = some content ∧
        (s.slaveLogs ⟨"g"⟩).entries[0]? = some (.keySpaceChanged ⟨content.newRanges, 1⟩) := by
  obtain ⟨trace, s, hrun, hranges, hcommit, hentry⟩ := (machine ℕ twoGroups).exists_run
    handshakeActions (p := fun r =>
      (∀ entry ∈ r.2.masters.agreedLog.entries,
        entry.getKeySpaceSelected.newRanges.length ≤ 1) ∧
      .keySpaceCommit ⟨"g", 1⟩ ∈ r.2.masters.agreedLog.entries ∧
      (r.2.slaveLogs ⟨"g"⟩).entries.length = 1) (by decide +kernel)
  simp only at hranges hentry
  have hcapacity : ProtobufCapacity s := fun content hcontent =>
    lt_of_le_of_lt (hranges _ hcontent) (by decide)
  have hagree := generations_agree (by decide) hrun hcapacity
  have hfirst := List.getElem?_eq_getElem (l := (s.slaveLogs ⟨"g"⟩).entries) (i := 0) (by omega)
  obtain ⟨content, hcontent, -, hchanged⟩ := hagree.slaveLogs ⟨"g"⟩ 0 _ hfirst
  exact ⟨trace, s, hrun, hcommit, content, hcontent, by rw [hfirst, hchanged]⟩

end UniversalDB.Database
