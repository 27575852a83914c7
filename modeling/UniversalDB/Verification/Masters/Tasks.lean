import UniversalDB.Verification.KeySpaceRange
import UniversalDB.Verification.Masters.History

/-! # What the tasks of a master do -/

namespace UniversalDB.Masters

open KeySpaceManager

variable {config : GroupConfigManager} {ranges : SlaveGroupRanges}
  {order : List ((_ : SlaveGroupId) × KeySpaceState)} {message : FindKeyRangeRequest}

theorem tableOf_of_withinRange {r : Server.KeySpaceRange} (h : withinRange message r) :
    tableOf r = (message.databaseId, message.tableId) := by
  obtain ⟨hdatabase, htable, -⟩ := Server.withinRange_iff.mp h
  rw [tableOf, hdatabase, htable]

theorem withinRange_wholeTable {r : Server.KeySpaceRange}
    (hwhole : r = wholeTable r.databaseId r.tableId)
    (htable : tableOf r = (message.databaseId, message.tableId)) : withinRange message r := by
  rw [tableOf, Prod.mk.injEq] at htable
  apply Server.withinRange_iff.mpr
  refine ⟨htable.1, htable.2, ?_⟩
  rw [hwhole]
  simp [wholeTable, HalfOpenInterval.Contains]

/-- The search stops at a group that has the table. -/
theorem search_keySpace (horder : ranges.Traversal order) {groupId : SlaveGroupId}
    (h : search message order = some (.keySpace groupId)) :
    ∃ r ∈ owned ranges groupId, tableOf r = (message.databaseId, message.tableId) := by
  obtain ⟨⟨g, v⟩, hmem, hv⟩ := List.exists_of_findSome?_eq_some h
  have hlookup := horder.mem_iff.mp hmem
  cases v with
  | keySpace keySpace =>
      simp only at hv
      split at hv
      · rename_i hany
        cases hv
        obtain ⟨r, hr, hwithin⟩ := List.any_eq_true.mp hany
        exact ⟨r, by simpa [owned, hlookup] using hr, tableOf_of_withinRange hwithin⟩
      · cases hv
  | newKeySpace keySpace =>
      simp only at hv
      split at hv <;> cases hv

theorem search_newKeySpace (horder : ranges.Traversal order) {groupId : SlaveGroupId}
    {newKeySpace : NewKeySpace}
    (h : search message order = some (.newKeySpace groupId newKeySpace)) :
    ranges.lookup groupId = some (.newKeySpace newKeySpace) := by
  obtain ⟨⟨g, v⟩, hmem, hv⟩ := List.exists_of_findSome?_eq_some h
  have hlookup := horder.mem_iff.mp hmem
  cases v with
  | keySpace keySpace =>
      simp only at hv
      split at hv <;> cases hv
  | newKeySpace keySpace =>
      simp only at hv
      split at hv
      · cases hv
        exact hlookup
      · cases hv

/-- A search that finds nothing has seen all groups, in either phase. -/
theorem search_none (horder : ranges.Traversal order) (hone : OneOwner ranges)
    (h : search message order = none) :
    ∀ g, ∀ r ∈ owned ranges g, tableOf r ≠ (message.databaseId, message.tableId) := by
  intro g r hr htable
  have hwithin := withinRange_wholeTable (hone.whole g r hr) htable
  rw [search, List.findSome?_eq_none_iff] at h
  cases hlookup : ranges.lookup g with
  | none =>
      rw [owned, hlookup] at hr
      cases hr
  | some v =>
      have hv := h ⟨g, v⟩ (horder.mem_iff.mpr hlookup)
      rw [owned, hlookup] at hr
      cases v with
      | keySpace keySpace =>
          simp only at hr hv
          rw [if_pos (List.any_eq_true.mpr ⟨r, hr, hwithin⟩)] at hv
          cases hv
      | newKeySpace keySpace =>
          simp only at hr hv
          rw [if_pos (List.any_eq_true.mpr ⟨r, hr, hwithin⟩)] at hv
          cases hv

theorem firstFree_lookup (horder : ranges.Traversal order) {groupId : SlaveGroupId}
    {keySpace : KeySpace} (h : firstFree order = some (groupId, keySpace)) :
    ranges.lookup groupId = some (.keySpace keySpace) := by
  obtain ⟨⟨g, v⟩, hmem, hv⟩ := List.exists_of_findSome?_eq_some h
  have hlookup := horder.mem_iff.mp hmem
  cases v with
  | keySpace keySpace =>
      cases hv
      exact hlookup
  | newKeySpace keySpace => cases hv

/-- What a run of a find-key task can do: it answers with the owner of the table, sends a
selection once more, answers with an error, waits, or proposes the table for a free
group. -/
inductive FindKeyStep (config : GroupConfigManager) (ranges : SlaveGroupRanges)
    (message : FindKeyRangeRequest) : FindKeyResult → Prop where
  | found {groupId : SlaveGroupId} {r : Server.KeySpaceRange} {retryCount : ℕ}
      (hr : r ∈ owned ranges groupId)
      (htable : tableOf r = (message.databaseId, message.tableId)) :
      FindKeyStep config ranges message
        ⟨some ⟨groupId.id, .UNSET⟩, [], none, retryCount, TERMINATE⟩
  | sent {groupId : SlaveGroupId} {newKeySpace : NewKeySpace} {retryCount : ℕ}
      (hlookup : ranges.lookup groupId = some (.newKeySpace newKeySpace)) :
      FindKeyStep config ranges message
        ⟨none, sendNewKeySpace config groupId newKeySpace, none, retryCount,
          WAIT_FOR_COMMIT_INSERTED⟩
  | refused {retryCount : ℕ} :
      FindKeyStep config ranges message ⟨some ⟨"", .ERROR⟩, [], none, retryCount, TERMINATE⟩
  | waited {retryCount : ℕ} :
      FindKeyStep config ranges message ⟨none, [], none, retryCount, WAIT_FOR_FREE⟩
  | proposed {entry : PaxosLogEntry} {retryCount : ℕ}
      (hadvances : ∃ ranges' sent, Advances config ranges entry ranges' sent)
      (hentry : ∀ content, entry ≠ .keySpaceCommit content) :
      FindKeyStep config ranges message
        ⟨none, [], some entry, retryCount, WAIT_FOR_NEW_KEY_SPACE⟩

theorem runFindKey_step (horder : ranges.Traversal order) (hone : OneOwner ranges)
    (task : FindKeyTask) :
    FindKeyStep config ranges task.message (KeySpaceManager.runFindKey config order task) := by
  unfold KeySpaceManager.runFindKey
  split
  · rename_i groupId hsearch
    obtain ⟨r, hr, htable⟩ := search_keySpace horder hsearch
    exact .found hr htable
  · rename_i groupId newKeySpace hsearch
    exact .sent (search_newKeySpace horder hsearch)
  · rename_i hsearch
    split
    · exact .refused
    · split
      · exact .waited
      · rename_i groupId keySpace hfree
        refine .proposed ⟨_, _, .selected (firstFree_lookup horder hfree)
          (search_none horder hone hsearch) rfl⟩ ?_
        simp

/-- A key-space-changed task proposes at most a commit, for a group of the slave. -/
theorem runKeySpaceChanged_cases {configOrder : List ((_ : SlaveGroupId) × ConfigState)}
    (horder : config.Traversal configOrder) (task : KeySpaceChangedTask) :
    (KeySpaceManager.runKeySpaceChanged configOrder ranges task).1 = none ∨
      ∃ groupId, (KeySpaceManager.runKeySpaceChanged configOrder ranges task).1 =
          some (.keySpaceCommit ⟨groupId.id, task.message.generation⟩) ∧
        task.endpointId ∈ config.getEndpoints groupId ∧
        ∃ ranges' sent, Advances config ranges
          (.keySpaceCommit ⟨groupId.id, task.message.generation⟩) ranges' sent := by
  unfold KeySpaceManager.runKeySpaceChanged
  split
  · exact .inl rfl
  · rename_i groupId hgroup
    split
    · rename_i newKeySpace hlookup
      split
      · rename_i hgeneration
        right
        refine ⟨groupId, rfl, ?_, ?_⟩
        · unfold GroupConfigManager.getGroupId at hgroup
          split at hgroup
          · rename_i e hfind
            obtain ⟨g, state⟩ := e
            cases hgroup
            have hmem := horder.mem_iff.mp (List.mem_of_find?_eq_some hfind)
            rw [GroupConfigManager.getEndpoints, hmem]
            simpa using List.find?_some hfind
          · cases hgroup
        · rw [← hgeneration]
          exact ⟨_, _, .commit hlookup⟩
      · exact .inl rfl
    · exact .inl rfl

/-! ## Steps -/

variable {ι : Type} [DecidableEq ι] {s s' : State ι}

/-- What a step of the masters can be. -/
inductive Move (s : State ι) : Action ι → List (Event ι) → State ι → Prop where
  | findKey (i : ι) (endpointId : EndpointId) (message : FindKeyRangeRequest) :
      Move s (.findKey i endpointId message) []
        (s.setMaster i ((s.masters i).handleFindKey endpointId message))
  | keySpaceChanged (i : ι) (endpointId : EndpointId) (message : Message.KeySpaceChanged) :
      Move s (.keySpaceChanged i endpointId message) [.received i endpointId message]
        (s.setMaster i ((s.masters i).handleKeySpaceChanged endpointId message))
  | runFindKey {i : ι} {order : List ((_ : SlaveGroupId) × KeySpaceState)} (task : FindKeyTask)
      (rest : List FindKeyTask) (horder : (s.masters i).slaveGroupRanges.Traversal order) :
      Move s (.runFindKey i order)
        (s.finish i (runFindKey i (s.masters i) order task rest)).1
        (s.finish i (runFindKey i (s.masters i) order task rest)).2
  | runKeySpaceChanged {i : ι} {order : List ((_ : SlaveGroupId) × ConfigState)}
      {task : KeySpaceChangedTask} {rest : List KeySpaceChangedTask}
      (hqueue : (s.masters i).localAsyncQueue = task :: rest)
      (horder : (s.masters i).groupConfigManager.Traversal order) :
      Move s (.runKeySpaceChanged i order)
        (s.finish i (runKeySpaceChanged i (s.masters i) order task rest)).1
        (s.finish i (runKeySpaceChanged i (s.masters i) order task rest)).2
  | choose {k : ℕ} {agreedLog : AgreedLog PaxosLogEntry}
      (hlength : s.agreedLog.entries.length < 2 ^ 64 - 1)
      (hchoose : s.agreedLog.choose k = some agreedLog) :
      Move s (.choose k) [] { s with agreedLog := agreedLog }
  | learn (i : ι) {index : ℕ} {entry : PaxosLogEntry}
      (hentry : s.agreedLog.entries[index]? = some entry) :
      Move s (.learn i index) (learn i (s.masters i) index entry).1
        (s.setMaster i (learn i (s.masters i) index entry).2)

theorem move_of_next {a : Action ι} {events : List (Event ι)}
    (h : next s a = some (events, s')) : Move s a events s' := by
  cases a with
  | findKey i endpointId message =>
      simp only [next] at h
      split at h <;> cases h
      exact .findKey i endpointId message
  | keySpaceChanged i endpointId message =>
      simp only [next] at h
      split at h <;> cases h
      exact .keySpaceChanged i endpointId message
  | runFindKey i order =>
      simp only [next] at h
      split at h
      · cases h
      · rename_i task rest hqueue
        split at h
        · rename_i hguard
          obtain ⟨rfl, rfl⟩ := Prod.mk.inj (Option.some.inj h)
          exact .runFindKey task rest hguard.2
        · cases h
  | runKeySpaceChanged i order =>
      simp only [next] at h
      split at h
      · cases h
      · rename_i task rest hqueue
        split at h
        · rename_i hguard
          obtain ⟨rfl, rfl⟩ := Prod.mk.inj (Option.some.inj h)
          exact .runKeySpaceChanged hqueue hguard.2
        · cases h
  | choose k =>
      simp only [next] at h
      split at h
      · rename_i hlength
        split at h
        · cases h
        · rename_i agreedLog hchoose
          cases h
          exact .choose hlength hchoose
      · cases h
  | learn i index =>
      simp only [next] at h
      split at h
      · cases h
      · rename_i entry hentry
        split at h
        · obtain ⟨rfl, rfl⟩ := Prod.mk.inj (Option.some.inj h)
          exact .learn i hentry
        · cases h

omit [DecidableEq ι] in
theorem received_finishTask {i i' : ι} {m m' : DataMaster} {events : List (Event ι)}
    {proposal : Except UniversalException (Option (ℕ × PaxosLogEntry))}
    {endpointId : EndpointId} {message : Message.KeySpaceChanged}
    (h : .received i' endpointId message ∈ (finishTask i m m' events proposal).1) :
    .received i' endpointId message ∈ events := by
  match proposal with
  | .error exception => exact h
  | .ok none => exact h
  | .ok (some (index, entry)) =>
      rcases List.mem_append.mp h with h | h
      · exact h
      · cases List.mem_singleton.mp h

/-- The log of the masters only grows. -/
theorem Move.entries_append {a : Action ι} {events : List (Event ι)} (h : Move s a events s') :
    ∃ rest, s'.agreedLog.entries = s.agreedLog.entries ++ rest := by
  cases h with
  | choose hlength hchoose =>
      obtain ⟨entry, -, hentries, -⟩ := AgreedLog.choose_cases hchoose
      exact ⟨[entry], hentries⟩
  | runFindKey task rest horder =>
      exact ⟨[], (AgreedLog.entries_offer _ _).trans (List.append_nil _).symm⟩
  | runKeySpaceChanged hqueue horder =>
      exact ⟨[], (AgreedLog.entries_offer _ _).trans (List.append_nil _).symm⟩
  | _ => exact ⟨[], (List.append_nil _).symm⟩

/-- A master receives what is delivered to it. -/
theorem Move.received {a : Action ι} {events : List (Event ι)} (h : Move s a events s') {i : ι}
    {endpointId : EndpointId} {message : Message.KeySpaceChanged}
    (hmem : .received i endpointId message ∈ events) :
    a = .keySpaceChanged i endpointId message := by
  cases h with
  | keySpaceChanged i' endpointId' message' =>
      cases List.mem_singleton.mp hmem
      rfl
  | runFindKey task rest horder =>
      have hshown := received_finishTask hmem
      simp at hshown
  | runKeySpaceChanged hqueue horder => cases received_finishTask hmem
  | learn i' hentry =>
      rw [Masters.learn] at hmem
      split at hmem <;> simp at hmem
  | _ => cases hmem

end UniversalDB.Masters
