import UniversalDB.Model.LogSyncer

/-! # What a log syncer sends and installs -/

namespace UniversalDB.LogSyncer

variable {κ : Type}

/-- An entry of a response is an entry of the log it was built from. -/
def Copies (paxosLog : PaxosLog κ) (x : PaxosLogEntryWithIndex) : Prop :=
  ∃ i, x.index = UInt32.ofNat i ∧ paxosLog.log i = some x.entry

theorem entriesBetween_copies (paxosLog : PaxosLog κ) (start stop : ℕ) :
    ∀ x ∈ entriesBetween paxosLog start stop, Copies paxosLog x := by
  intro x hx
  obtain ⟨i, -, hi⟩ := List.mem_filterMap.mp hx
  obtain ⟨entry, hentry, rfl⟩ := Option.map_eq_some_iff.mp hi
  exact ⟨i, rfl, hentry⟩

theorem missingEntries_copies (paxosLog : PaxosLog κ) (curLastIndex : ℕ)
    (subarrays : List IndexSubArray) :
    ∀ x ∈ missingEntries paxosLog curLastIndex subarrays, Copies paxosLog x := by
  induction subarrays with
  | nil =>
      intro x hx
      cases hx
  | cons subarray rest ih =>
      intro x hx
      simp only [missingEntries] at hx
      split at hx
      · cases hx
      · rcases List.mem_append.mp hx with hx | hx
        · exact entriesBetween_copies _ _ _ x hx
        · exact ih x hx

theorem buildSyncResponse_copies {paxosLog : PaxosLog κ} {request : SyncRequest}
    {response : SyncResponse} (h : buildSyncResponse paxosLog request = .ok response) :
    ∀ x ∈ response.missingEntries, Copies paxosLog x := by
  simp only [buildSyncResponse, bind, Except.bind, pure, Except.pure] at h
  split at h
  · cases h
  · rename_i curLastIndex hcur
    split at h
    · cases h
      intro x hx
      rcases List.mem_append.mp hx with hx | hx
      · exact missingEntries_copies _ _ _ x hx
      · exact entriesBetween_copies _ _ _ x hx
    · cases h
      exact missingEntries_copies _ _ _

end UniversalDB.LogSyncer
