import UniversalDB.Verification.Masters.KeySpaces
import UniversalDB.Verification.Masters.Service

/-! # The masters on their Paxos group -/

namespace UniversalDB.Masters

open Service

variable {n : ℕ} {groups : List SlaveGroup} {trace : List (Service.Event n (Event (Fin n)))}
  {s : Service.State n DataMaster}

/-- The masters on a Paxos group do what the masters over an agreed log do, this log holds
what the group has learned, and no master ever stops. -/
theorem masters_on_paxos_group
    (h : ((service (Fin n) groups).restricted Group.LastIsGreatest).Run trace s) :
    (∃ t, (machine (Fin n) groups).system.Run (trace.filterMap serviceView) t ∧
      (∀ i, t.masters i = (s.members i).state) ∧
      ∀ index e, t.agreedLog.entries[index]? = some e ↔
        Group.LearnedAt (trace.filterMap paxosView) index e) ∧
    ∀ i, (service (Fin n) groups).live (s.members i) = true := by
  obtain ⟨g, t, -, ht, hR⟩ := simulated_of_run h
  have hrun := run_agreed ht
  refine ⟨⟨agreedState t, hrun, hR.participants, hR.agreed.entries⟩, ?_⟩
  intro i
  have hlive : (t.participants i).exception = none := ((inv_of_run hrun).masters i).live
  rw [hR.participants] at hlive
  exact live_iff.mpr ⟨hlive, hR.running i⟩

/-- A master selects the group of a table for a client, and all three masters learn it. -/
def selectActions (p : Fin n) : List (Service.Action n LocalAction) :=
  [.act p 0 (.findKey ⟨"c", 0⟩ ⟨"db", "t", "k"⟩),
    .act p 2 (.runFindKey [⟨⟨"g"⟩, .keySpace ⟨[], 0⟩⟩, ⟨⟨"h"⟩, .keySpace ⟨[], 0⟩⟩])] ++
    List.replicate 18 (.deliver 0)

theorem masters_on_paxos_group_sample :
    ∃ (trace : List (Service.Event 3 (Event (Fin 3)))) (s : Service.State 3 DataMaster),
      ((service (Fin 3) twoGroups).restricted Group.LastIsGreatest).Run trace s ∧
        (s.members 2).state.paxosLog.getEntry 0 ≠ none ∧
        ∀ i, (service (Fin 3) twoGroups).live (s.members i) = true := by
  obtain ⟨trace, s, hrun, hentry⟩ :=
    ((service (Fin 3) twoGroups).machine.restrict fun s a =>
      ∀ promises ∈ (service (Fin 3) twoGroups).completed s a,
        Group.LastIsGreatest promises).exists_run
      (selectActions 0) (p := fun r => (r.2.members 2).state.paxosLog.getEntry 0 ≠ none)
      (by decide +kernel)
  have hrestricted : ((service (Fin 3) twoGroups).restricted Group.LastIsGreatest).Run trace s :=
    Machine.guarded_of_restrict hrun
  exact ⟨trace, s, hrestricted, hentry, (masters_on_paxos_group hrestricted).2⟩

/-! ## Owners -/

/-- Any two masters, however far they are behind, give a table to the same group, and so does
every response that a client has got from any master. -/
theorem owners_agree (h : ((service (Fin n) groups).restricted Group.LastIsGreatest).Run trace s)
    (table : String × String) :
    ∃ owner : SlaveGroupId,
      (∀ i g, ∀ r ∈ owned (s.members i).state.slaveGroupRanges g, tableOf r = table →
        g = owner) ∧
      ∀ i endpointId message response,
        .service (.responded i endpointId message response) ∈ trace →
        response.errorCode ≠ .ERROR → (message.databaseId, message.tableId) = table →
        response.slaveGroupId = owner.id := by
  obtain ⟨g, t, -, ht, hR⟩ := simulated_of_run h
  have hinv := inv_of_run (run_agreed ht)
  have howned : ∀ i g, ∀ r ∈ owned (s.members i).state.slaveGroupRanges g, tableOf r = table →
      Owns groups t.agreedLog.entries g table := by
    intro i g r hr htable
    obtain ⟨m, sent, -, hm, hhistory, -⟩ := hinv.master_history i
    rw [← hR.participants i] at hr
    exact ⟨m, _, sent, hm, hhistory, r, hr, htable⟩
  have hanswered : ∀ i endpointId message response,
      .service (.responded i endpointId message response) ∈ trace →
      response.errorCode ≠ .ERROR → (message.databaseId, message.tableId) = table →
      Owns groups t.agreedLog.entries ⟨response.slaveGroupId⟩ table := by
    intro i endpointId message response hmem hcode htable
    have hview : .responded i endpointId message response ∈ trace.filterMap serviceView :=
      List.mem_filterMap.mpr ⟨_, hmem, rfl⟩
    have howns := hinv.events _ hview hcode
    rw [htable] at howns
    exact howns
  by_cases howner : ∃ owner, Owns groups t.agreedLog.entries owner table
  · obtain ⟨owner, howns⟩ := howner
    refine ⟨owner, ?_, ?_⟩
    · intro i g r hr htable
      exact (howned i g r hr htable).unique hinv howns
    · intro i endpointId message response hmem hcode htable
      have heq := (hanswered i endpointId message response hmem hcode htable).unique hinv howns
      exact congrArg SlaveGroupId.id heq
  · refine ⟨⟨""⟩, ?_, ?_⟩
    · intro i g r hr htable
      exact absurd ⟨g, howned i g r hr htable⟩ howner
    · intro i endpointId message response hmem hcode htable
      exact absurd ⟨_, hanswered i endpointId message response hmem hcode htable⟩ howner

theorem owners_agree_sample :
    ∃ (trace : List (Service.Event 3 (Event (Fin 3)))) (s : Service.State 3 DataMaster)
      (owner : SlaveGroupId),
      ((service (Fin 3) twoGroups).restricted Group.LastIsGreatest).Run trace s ∧
      wholeTable "db" "t" ∈ owned (s.members 2).state.slaveGroupRanges ⟨"g"⟩ ∧
      (⟨"g"⟩ : SlaveGroupId) = owner := by
  obtain ⟨trace, s, hrun, howned⟩ :=
    ((service (Fin 3) twoGroups).machine.restrict fun s a =>
      ∀ promises ∈ (service (Fin 3) twoGroups).completed s a,
        Group.LastIsGreatest promises).exists_run
      (selectActions 0) (p := fun r =>
        wholeTable "db" "t" ∈ owned (r.2.members 2).state.slaveGroupRanges ⟨"g"⟩)
      (by decide +kernel)
  have hrestricted : ((service (Fin 3) twoGroups).restricted Group.LastIsGreatest).Run trace s :=
    Machine.guarded_of_restrict hrun
  obtain ⟨owner, hmasters, -⟩ := owners_agree hrestricted ("db", "t")
  exact ⟨trace, s, owner, hrestricted, howned, hmasters 2 _ _ howned rfl⟩

end UniversalDB.Masters
