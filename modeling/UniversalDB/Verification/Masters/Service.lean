import UniversalDB.Model.DataMaster
import UniversalDB.Verification.Service.Refinement

/-! # The masters as a service -/

namespace UniversalDB.Masters

open KeySpaceManager

variable {ι : Type}

theorem propose_index {m : DataMaster} {proposal : Option PaxosLogEntry} {index : ℕ}
    {entry : PaxosLogEntry} (h : m.propose proposal = .ok (some (index, entry))) :
    m.paxosLog.nextAvailableIndex = .ok index := by
  cases proposal with
  | none => cases h
  | some entry' =>
      simp only [DataMaster.propose, bind, Except.bind] at h
      split at h
      · cases h
      · rename_i index' hindex
        cases h
        exact hindex

/-- A task leaves the log alone, and proposes for the next available index. -/
theorem finishTask_spec {i : ι} {m m' m'' : DataMaster} {events events' : List (Event ι)}
    {proposal : Option PaxosLogEntry} {proposed : Option (ℕ × PaxosLogEntry)}
    (hlog : m'.paxosLog = m.paxosLog)
    (h : finishTask i m m' events (m.propose proposal) = (events', m'', proposed)) :
    m''.paxosLog = m.paxosLog ∧ ∀ index entry, proposed = some (index, entry) →
      m.paxosLog.nextAvailableIndex = .ok index := by
  unfold finishTask at h
  split at h
  · cases h
    exact ⟨rfl, fun _ _ hnone => by cases hnone⟩
  · cases h
    exact ⟨hlog, fun _ _ hnone => by cases hnone⟩
  · rename_i index entry hproposed
    cases h
    refine ⟨hlog, ?_⟩
    rintro index' entry' hsome
    cases hsome
    exact propose_index hproposed

/-- An action leaves the log alone, and proposes for the next available index. -/
theorem act_spec {i : ι} {a : LocalAction} {m m' : DataMaster} {events : List (Event ι)}
    {proposal : Option (ℕ × PaxosLogEntry)} (h : act i a m = some (events, m', proposal)) :
    m'.paxosLog = m.paxosLog ∧ ∀ index entry, proposal = some (index, entry) →
      m.paxosLog.nextAvailableIndex = .ok index := by
  cases a with
  | findKey endpointId message =>
      cases h
      exact ⟨rfl, by simp⟩
  | keySpaceChanged endpointId message =>
      cases h
      exact ⟨rfl, by simp⟩
  | runFindKey order =>
      simp only [act] at h
      split at h
      · cases h
      · split at h
        · refine finishTask_spec ?_ (Option.some.inj h)
          rfl
        · cases h
  | runKeySpaceChanged order =>
      simp only [act] at h
      split at h
      · cases h
      · split at h
        · refine finishTask_spec ?_ (Option.some.inj h)
          rfl
        · cases h

/-- The masters of a database. -/
def service (ι : Type) (groups : List SlaveGroup) :
    Service ι KeySpaceManager.Callback DataMaster LocalAction (Event ι) where
  new := .new groups
  paxosLog m := m.paxosLog
  exception m := m.exception
  act := act
  setEntry i index entry m := learn i m index entry
  new_paxosLog := rfl
  act_paxosLog h := (act_spec h).1
  act_index h := (act_spec h).2 _ _ rfl
  setEntry_paxosLog {i index entry m} h := by
    simp only [learn] at h ⊢
    split at h
    · cases h
    · rename_i m' sent hset
      simp only [DataMaster.setEntry, bind, Except.bind] at hset
      split at hset
      · cases hset
      · rename_i result hlog
        split at hset
        · cases hset
        · cases hset
          exact ⟨result.2, hlog⟩

/-! ## Over an agreed log the service is the masters -/

def agreedAction : Service.AgreedAction ι LocalAction → Action ι
  | .act i (.findKey endpointId message) => .findKey i endpointId message
  | .act i (.keySpaceChanged endpointId message) => .keySpaceChanged i endpointId message
  | .act i (.runFindKey order) => .runFindKey i order
  | .act i (.runKeySpaceChanged order) => .runKeySpaceChanged i order
  | .choose k => .choose k
  | .learn i index => .learn i index

abbrev agreedState (t : Service.AgreedState ι DataMaster) : State ι where
  masters := t.participants
  agreedLog := t.agreedLog

variable [DecidableEq ι]

theorem next_act {t : Service.AgreedState ι DataMaster} {i : ι} {a : LocalAction}
    {events : List (Event ι)} {m : DataMaster} {proposal : Option (ℕ × PaxosLogEntry)}
    (hlive : (t.participants i).exception.isNone)
    (h : act i a (t.participants i) = some (events, m, proposal)) :
    next (agreedState t) (agreedAction (.act i a)) = some (events,
      ⟨Function.update t.participants i m, t.agreedLog.offer proposal⟩) := by
  cases a with
  | findKey endpointId message =>
      cases h
      exact if_pos hlive
  | keySpaceChanged endpointId message =>
      cases h
      exact if_pos hlive
  | runFindKey order =>
      simp only [act] at h
      simp only [agreedAction, next]
      cases hqueue : (t.participants i).asyncQueue with
      | nil => simp [hqueue] at h
      | cons task rest =>
          simp only [hqueue] at h
          split at h
          · rename_i horder
            refine (if_pos ⟨hlive, horder⟩).trans ?_
            rw [Option.some.inj h]
            rfl
          · cases h
  | runKeySpaceChanged order =>
      simp only [act] at h
      simp only [agreedAction, next]
      cases hqueue : (t.participants i).localAsyncQueue with
      | nil => simp [hqueue] at h
      | cons task rest =>
          simp only [hqueue] at h
          split at h
          · rename_i horder
            refine (if_pos ⟨hlive, horder⟩).trans ?_
            rw [Option.some.inj h]
            rfl
          · cases h

theorem next_agreed {groups : List SlaveGroup} {t t' : Service.AgreedState ι DataMaster}
    {a : Service.AgreedAction ι LocalAction} {events : List (Event ι)}
    (h : (service ι groups).nextAgreed t a = some (events, t')) :
    next (agreedState t) (agreedAction a) = some (events, agreedState t') := by
  cases a with
  | act i a =>
      simp only [Service.nextAgreed] at h
      split at h
      · rename_i hlive
        split at h
        · cases h
        · rename_i shown m proposal hact
          cases h
          exact next_act hlive hact
      · cases h
  | choose k =>
      simp only [Service.nextAgreed] at h
      simp only [agreedAction, next]
      split at h
      · rename_i hlength
        rw [if_pos hlength]
        cases hchoose : t.agreedLog.choose k with
        | none => simp [hchoose] at h
        | some agreedLog =>
            simp only [hchoose, Option.some.injEq, Prod.mk.injEq] at h
            obtain ⟨rfl, rfl⟩ := h
            rfl
      · cases h
  | learn i index =>
      simp only [Service.nextAgreed] at h
      simp only [agreedAction, next]
      cases hentry : t.agreedLog.entries[index]? with
      | none => simp [hentry] at h
      | some entry =>
          simp only [hentry] at h
          split at h
          · rename_i hlive
            simp only [Option.some.injEq, Prod.mk.injEq] at h
            obtain ⟨rfl, rfl⟩ := h
            exact if_pos hlive
          · cases h

theorem run_agreed {groups : List SlaveGroup} {trace : List (Event ι)}
    {t : Service.AgreedState ι DataMaster}
    (h : (service ι groups).agreedMachine.system.Run trace t) :
    (machine ι groups).system.Run trace (agreedState t) :=
  Machine.run_rename agreedState agreedAction rfl next_agreed h

end UniversalDB.Masters
