import UniversalDB.Verification.Masters.Tasks

/-! # The invariant of the masters, and that it holds in every run -/

namespace UniversalDB.Masters

open KeySpaceManager PaxosLog

variable {ι : Type} {groups : List SlaveGroup} {trace events : List (Event ι)}
  {s s' : State ι} {G : List PaxosLogEntry}

/-- A master has not stopped, and its key spaces are those of a prefix of the log. -/
structure MasterInv (groups : List SlaveGroup) (G : List PaxosLogEntry) (m : DataMaster) :
    Prop where
  groupConfigManager : m.groupConfigManager = DataMaster.registerConfigs groups
  replica : Replica (run (DataMaster.registerConfigs groups)) registrations
    (DataMaster.registerRanges groups) G m.paxosLog m.slaveGroupRanges
  live : m.exception = none

/-- A slave of the group has sent the generation that is committed. -/
def Reported (groups : List SlaveGroup) (trace : List (Event ι)) : PaxosLogEntry → Prop
  | .keySpaceCommit content => ∃ i endpointId,
      .received i endpointId ⟨content.generation⟩ ∈ trace ∧
        endpointId ∈ (DataMaster.registerConfigs groups).getEndpoints ⟨content.slaveGroupId⟩
  | _ => True

/-- The log has given the table to the group. -/
def Owns (groups : List SlaveGroup) (G : List PaxosLogEntry) (groupId : SlaveGroupId)
    (table : String × String) : Prop :=
  ∃ k ranges sent, k ≤ G.length ∧ History groups (G.take k) ranges sent ∧
    ∃ r ∈ owned ranges groupId, tableOf r = table

/-- What the log says of the messages that masters send. -/
def Shown (groups : List SlaveGroup) (G : List PaxosLogEntry) : Event ι → Prop
  | .responded _ _ message response => response.errorCode ≠ .ERROR →
      Owns groups G ⟨response.slaveGroupId⟩ (message.databaseId, message.tableId)
  | .sent _ x => Selects (DataMaster.registerConfigs groups) G x
  | _ => True

structure Inv (groups : List SlaveGroup) (trace : List (Event ι)) (s : State ι) : Prop where
  masters : ∀ i, MasterInv groups s.agreedLog.entries (s.masters i)
  pinned : s.agreedLog.Pinned (Admissible groups)
  length : s.agreedLog.entries.length ≤ 2 ^ 64 - 1
  events : ∀ e ∈ trace, Shown groups s.agreedLog.entries e
  tasks : ∀ i, ∀ task ∈ (s.masters i).localAsyncQueue,
    ∃ i', .received i' task.endpointId task.message ∈ trace
  proposals : ∀ index e, (index, e) ∈ s.agreedLog.proposals → Reported groups trace e
  entries : ∀ e ∈ s.agreedLog.entries, Reported groups trace e

/-! ## Preservation -/

theorem Reported.append {e : PaxosLogEntry} (h : Reported groups trace e)
    (events : List (Event ι)) : Reported groups (trace ++ events) e := by
  cases e with
  | keySpaceCommit content =>
      obtain ⟨i, endpointId, hmem, hslave⟩ := h
      exact ⟨i, endpointId, List.mem_append_left _ hmem, hslave⟩
  | _ => exact h

theorem Owns.append {groupId : SlaveGroupId} {table : String × String}
    (h : Owns groups G groupId table) (rest : List PaxosLogEntry) :
    Owns groups (G ++ rest) groupId table := by
  obtain ⟨k, ranges, sent, hk, hhistory, hr⟩ := h
  refine ⟨k, ranges, sent, ?_, ?_, hr⟩
  · rw [List.length_append]
    omega
  · rw [List.take_append_of_le_length hk]
    exact hhistory

theorem Shown.append {e : Event ι} (h : Shown groups G e) (rest : List PaxosLogEntry) :
    Shown groups (G ++ rest) e := by
  cases e with
  | responded i endpointId message response => exact fun hcode => (h hcode).append rest
  | sent i x => exact Selects.append h rest
  | received i endpointId message => trivial
  | proposed i index entry => trivial

theorem Inv.history (h : Inv groups trace s) {k : ℕ} (hk : k ≤ s.agreedLog.entries.length) :
    ∃ ranges sent, History groups (s.agreedLog.entries.take k) ranges sent ∧
      HistoryInv groups (s.agreedLog.entries.take k) ranges sent :=
  history_take h.pinned.entries k hk

/-- A task stays one that a message has asked for. -/
theorem Inv.received (h : Inv groups trace s) {i : ι} {task : KeySpaceChangedTask}
    (htask : task ∈ (s.masters i).localAsyncQueue) (events : List (Event ι)) :
    ∃ i', .received i' task.endpointId task.message ∈ trace ++ events := by
  obtain ⟨i', hmem⟩ := h.tasks i task htask
  exact ⟨i', List.mem_append_left _ hmem⟩

/-- The key spaces of a master are those of a prefix of the log, which ends at its next
available index. -/
theorem Inv.master_history (h : Inv groups trace s) (i : ι) :
    ∃ m sent, (s.masters i).paxosLog.nextAvailableIndex = .ok m ∧
      m ≤ s.agreedLog.entries.length ∧
      History groups (s.agreedLog.entries.take m) (s.masters i).slaveGroupRanges sent ∧
      HistoryInv groups (s.agreedLog.entries.take m) (s.masters i).slaveGroupRanges sent := by
  obtain ⟨m, sent, hindex, hm, hhistory⟩ := (h.masters i).replica.nextAvailableIndex
  obtain ⟨ranges, sent', hhistory', hinv⟩ := h.history hm
  obtain ⟨rfl, rfl⟩ := hhistory.unique hhistory'
  exact ⟨m, sent, hindex, hm, hhistory, hinv⟩

theorem initial_inv (groups : List SlaveGroup) :
    Inv groups [] (State.initial groups : State ι) := by
  constructor
  · intro i
    refine ⟨rfl, ?_, rfl⟩
    simp only [State.initial, new_paxosLog]
    exact replica_register
  · exact AgreedLog.pinned_empty
  all_goals simp [State.initial, AgreedLog.empty, DataMaster.new]

theorem Inv.propose (h : Inv groups trace s) (i : ι) {index : ℕ} {entry : PaxosLogEntry}
    (hindex : index ≤ s.agreedLog.entries.length)
    (hadmissible : Admissible groups (s.agreedLog.entries.take index) entry)
    (hreported : Reported groups trace entry) :
    Inv groups (trace ++ [.proposed i index entry])
      { s with agreedLog := s.agreedLog.propose index entry } := by
  constructor
  · exact h.masters
  · exact h.pinned.propose hindex hadmissible
  · exact h.length
  · intro e he
    rcases List.mem_append.mp he with he | he
    · exact h.events e he
    · rw [List.mem_singleton.mp he]
      trivial
  · exact fun i' task htask => h.received htask _
  · intro index' entry' hmem
    rcases List.mem_append.mp hmem with hold | hnew
    · exact (h.proposals index' entry' hold).append _
    · cases List.mem_singleton.mp hnew
      exact hreported.append _
  · exact fun e he => (h.entries e he).append _

theorem Inv.choose (h : Inv groups trace s)
    (hlength : s.agreedLog.entries.length < 2 ^ 64 - 1) {k : ℕ}
    {agreedLog : AgreedLog PaxosLogEntry} (hchoose : s.agreedLog.choose k = some agreedLog) :
    Inv groups trace { s with agreedLog := agreedLog } := by
  obtain ⟨entry, hmem, hentries, hproposals⟩ := AgreedLog.choose_cases hchoose
  constructor
  · intro i
    obtain ⟨hconfig, hreplica, hlive⟩ := h.masters i
    simp only [hentries]
    exact ⟨hconfig, hreplica.append _, hlive⟩
  · exact h.pinned.choose hchoose
  · simp only [hentries, List.length_append, List.length_singleton]
    omega
  · intro e he
    simp only [hentries]
    exact (h.events e he).append _
  · exact h.tasks
  · intro index e hp
    rw [hproposals] at hp
    exact h.proposals index e hp
  · intro e he
    simp only [hentries] at he
    rcases List.mem_append.mp he with hold | hnew
    · exact h.entries e hold
    · rw [List.mem_singleton.mp hnew]
      exact h.proposals _ _ hmem

variable [DecidableEq ι]

/-- A step of one master that proposes nothing. -/
theorem Inv.setMaster (h : Inv groups trace s) {i : ι} {m : DataMaster}
    (hm : MasterInv groups s.agreedLog.entries m)
    (hevents : ∀ e ∈ events, Shown groups s.agreedLog.entries e)
    (htasks : ∀ task ∈ m.localAsyncQueue,
      ∃ i', .received i' task.endpointId task.message ∈ trace ++ events) :
    Inv groups (trace ++ events) (s.setMaster i m) := by
  constructor
  · exact (Function.forall_update_iff s.masters fun _ m => MasterInv groups _ m).mpr
      ⟨hm, fun i' _ => h.masters i'⟩
  · exact h.pinned
  · exact h.length
  · intro e he
    rcases List.mem_append.mp he with he | he
    · exact h.events e he
    · exact hevents e he
  · apply (Function.forall_update_iff s.masters fun _ m => ∀ task ∈ m.localAsyncQueue,
      ∃ i', .received i' task.endpointId task.message ∈ trace ++ events).mpr
    exact ⟨htasks, fun i' _ task htask => h.received htask events⟩
  · exact fun index e he => (h.proposals index e he).append _
  · exact fun e he => (h.entries e he).append _

/-- A task of a master has run. What it proposes can be applied to its key spaces. -/
theorem Inv.finish (h : Inv groups trace s) {i : ι} {m : DataMaster}
    (hm : MasterInv groups s.agreedLog.entries m)
    (hevents : ∀ e ∈ events, Shown groups s.agreedLog.entries e)
    (htasks : m.localAsyncQueue ⊆ (s.masters i).localAsyncQueue)
    {proposal : Option PaxosLogEntry}
    (hproposal : ∀ entry ∈ proposal, Reported groups trace entry ∧ ∃ ranges' sent,
      Advances (DataMaster.registerConfigs groups) (s.masters i).slaveGroupRanges entry
        ranges' sent) :
    Inv groups
      (trace ++
        (s.finish i (finishTask i (s.masters i) m events ((s.masters i).propose proposal))).1)
      (s.finish i (finishTask i (s.masters i) m events ((s.masters i).propose proposal))).2 := by
  have hset : Inv groups (trace ++ events) (s.setMaster i m) := by
    apply h.setMaster hm hevents
    exact fun task htask => h.received (htasks htask) events
  cases proposal with
  | none => exact hset
  | some entry =>
      obtain ⟨hreported, hadvances⟩ := hproposal entry rfl
      obtain ⟨index, sent, hindex, hle, hhistory, -⟩ := h.master_history i
      simp only [DataMaster.propose, hindex, bind, Except.bind, pure, Except.pure, finishTask,
        State.finish]
      rw [← List.append_assoc]
      apply hset.propose i hle
      · intro ranges sent' hhistory'
        obtain ⟨rfl, -⟩ := hhistory.unique hhistory'
        exact hadvances
      · exact hreported.append _

theorem Inv.findKey (h : Inv groups trace s) (i : ι) (endpointId : EndpointId)
    (message : FindKeyRangeRequest) :
    Inv groups (trace ++ []) (s.setMaster i ((s.masters i).handleFindKey endpointId message)) := by
  obtain ⟨hconfig, hreplica, hlive⟩ := h.masters i
  apply h.setMaster
  · exact ⟨hconfig, hreplica, hlive⟩
  · simp
  · exact fun task htask => h.received htask []

theorem Inv.keySpaceChanged (h : Inv groups trace s) (i : ι) (endpointId : EndpointId)
    (message : Message.KeySpaceChanged) :
    Inv groups (trace ++ [.received i endpointId message])
      (s.setMaster i ((s.masters i).handleKeySpaceChanged endpointId message)) := by
  obtain ⟨hconfig, hreplica, hlive⟩ := h.masters i
  apply h.setMaster
  · exact ⟨hconfig, hreplica, hlive⟩
  · intro e he
    rw [List.mem_singleton.mp he]
    trivial
  · intro task htask
    rcases List.mem_append.mp htask with hold | hnew
    · exact h.received hold _
    · rw [List.mem_singleton.mp hnew]
      exact ⟨i, by simp⟩

theorem Inv.runFindKey (h : Inv groups trace s) {i : ι}
    {order : List ((_ : SlaveGroupId) × KeySpaceState)}
    (horder : (s.masters i).slaveGroupRanges.Traversal order) (task : FindKeyTask)
    (rest : List FindKeyTask) :
    Inv groups (trace ++ (s.finish i (runFindKey i (s.masters i) order task rest)).1)
      (s.finish i (runFindKey i (s.masters i) order task rest)).2 := by
  obtain ⟨k, sent, -, hk, hhistory, hinv⟩ := h.master_history i
  obtain ⟨hconfig, hreplica, hlive⟩ := h.masters i
  have hstep : FindKeyStep (s.masters i).groupConfigManager (s.masters i).slaveGroupRanges
      task.message (KeySpaceManager.runFindKey (s.masters i).groupConfigManager order task) :=
    runFindKey_step horder hinv.oneOwner task
  rw [hconfig] at hstep
  have hselecting : ∀ groupId newKeySpace,
      (s.masters i).slaveGroupRanges.lookup groupId = some (.newKeySpace newKeySpace) →
        ∀ x ∈ sendNewKeySpace (DataMaster.registerConfigs groups) groupId newKeySpace,
          Selects (DataMaster.registerConfigs groups) s.agreedLog.entries x := by
    intro groupId newKeySpace hlookup
    apply selects_sendNewKeySpace
    exact List.mem_of_mem_take (hinv.selecting groupId newKeySpace hlookup)
  unfold Masters.runFindKey
  simp only [hconfig]
  generalize KeySpaceManager.runFindKey (DataMaster.registerConfigs groups) order task = result
    at hstep ⊢
  apply h.finish
  · exact ⟨rfl, hreplica, hlive⟩
  · intro e he
    cases hstep with
    | @found groupId r retryCount hr htable =>
        obtain rfl : e = .responded i task.endpointId task.message ⟨groupId.id, .UNSET⟩ := by
          simpa using he
        exact fun _ => ⟨k, _, sent, hk, hhistory, r, hr, htable⟩
    | @sent groupId newKeySpace retryCount hlookup =>
        obtain ⟨x, hx, rfl⟩ : ∃ x ∈ sendNewKeySpace (DataMaster.registerConfigs groups) groupId
            newKeySpace, Event.sent i x = e := by
          simpa using he
        exact hselecting groupId newKeySpace hlookup x hx
    | refused =>
        obtain rfl : e = .responded i task.endpointId task.message ⟨"", .ERROR⟩ := by
          simpa using he
        exact fun hcode => absurd rfl hcode
    | waited => cases he
    | proposed hadvances hentry => cases he
  · exact fun _ ht => ht
  · intro entry hentry
    cases hstep with
    | @proposed entry' retryCount hadvances hcommit =>
        cases hentry
        refine ⟨?_, hadvances⟩
        cases entry with
        | keySpaceCommit content => exact absurd rfl (hcommit content)
        | _ => trivial
    | _ => cases hentry

theorem Inv.runKeySpaceChanged (h : Inv groups trace s) {i : ι}
    {order : List ((_ : SlaveGroupId) × ConfigState)}
    (horder : (s.masters i).groupConfigManager.Traversal order) {task : KeySpaceChangedTask}
    {rest : List KeySpaceChangedTask} (hqueue : (s.masters i).localAsyncQueue = task :: rest) :
    Inv groups (trace ++ (s.finish i (runKeySpaceChanged i (s.masters i) order task rest)).1)
      (s.finish i (runKeySpaceChanged i (s.masters i) order task rest)).2 := by
  obtain ⟨hconfig, hreplica, hlive⟩ := h.masters i
  have hcases := @runKeySpaceChanged_cases _ (s.masters i).slaveGroupRanges order horder task
  rw [hconfig] at hcases
  obtain ⟨i', hreceived⟩ := h.tasks i task (by simp [hqueue])
  rw [Masters.runKeySpaceChanged]
  generalize KeySpaceManager.runKeySpaceChanged order (s.masters i).slaveGroupRanges task = result
    at hcases ⊢
  obtain ⟨proposal, wait⟩ := result
  apply h.finish
  · exact ⟨hconfig, hreplica, hlive⟩
  · simp
  · rw [hqueue]
    intro task' htask'
    simp only at htask'
    split at htask'
    · exact List.mem_cons_of_mem _ htask'
    · exact htask'
  · intro entry hentry
    rcases hcases with rfl | ⟨groupId, rfl, hslave, hadvances⟩
    · cases hentry
    · cases hentry
      exact ⟨⟨i', task.endpointId, hreceived, hslave⟩, hadvances⟩

theorem Inv.learn (h : Inv groups trace s) (i : ι) {index : ℕ} {entry : PaxosLogEntry}
    (hentry : s.agreedLog.entries[index]? = some entry) :
    Inv groups (trace ++ (learn i (s.masters i) index entry).1)
      (s.setMaster i (learn i (s.masters i) index entry).2) := by
  obtain ⟨hconfig, hreplica, hlive⟩ := h.masters i
  have hindex : index < 2 ^ 64 - 1 := by
    have hlt := (List.getElem?_eq_some_iff.mp hentry).1
    have hlength := h.length
    omega
  obtain ⟨l', calls, ranges', m, sent, sent', hset, hcalls, hreplica', hm, hhistory⟩ :=
    hreplica.setEntry (fun k hk => by
      obtain ⟨ranges, sent, hhistory, -⟩ := h.history hk
      exact ⟨ranges, sent, hhistory⟩) hentry hindex
  have hresult : (s.masters i).setEntry index entry =
      .ok ({ s.masters i with paxosLog := l', slaveGroupRanges := ranges' }, sent') := by
    simp only [DataMaster.setEntry, hset, hconfig, hcalls, bind, Except.bind]
    rfl
  obtain ⟨ranges'', sent'', hhistory'', hinv⟩ := h.history hm
  obtain ⟨rfl, rfl⟩ := hhistory.unique hhistory''
  unfold Masters.learn
  rw [hresult]
  apply h.setMaster
  · exact ⟨hconfig, hreplica', hlive⟩
  · intro e he
    obtain ⟨x, hx, rfl⟩ := List.mem_map.mp he
    have hselects := (hinv.sent x (List.mem_append_right _ hx)).append
      (s.agreedLog.entries.drop m)
    rw [List.take_append_drop] at hselects
    exact hselects
  · exact fun task htask => h.received htask _

theorem Inv.move (h : Inv groups trace s) {a : Action ι} (hmove : Move s a events s') :
    Inv groups (trace ++ events) s' := by
  cases hmove with
  | findKey i endpointId message => exact h.findKey i endpointId message
  | keySpaceChanged i endpointId message => exact h.keySpaceChanged i endpointId message
  | runFindKey task rest horder => exact h.runFindKey horder task rest
  | runKeySpaceChanged hqueue horder => exact h.runKeySpaceChanged horder hqueue
  | choose hlength hchoose =>
      rw [List.append_nil]
      exact h.choose hlength hchoose
  | learn i hentry => exact h.learn i hentry

theorem inv_of_run (h : (machine ι groups).system.Run trace s) : Inv groups trace s := by
  apply h.invariant
  · rintro s rfl
    exact initial_inv groups
  · rintro past s events s' - hinv ⟨a, -, hnext⟩
    exact hinv.move (move_of_next hnext)

end UniversalDB.Masters
