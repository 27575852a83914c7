import UniversalDB.Verification.ClientRequestHandler
import UniversalDB.Verification.Service.Refinement

/-! # The participants of a tablet as a service -/

namespace UniversalDB.Tablet

open ClientRequestHandler

variable {ι ε : Type}

theorem run_paxosLog (i : ι) (p : TabletParticipant ε) (task : Task ε)
    (rest : List (Task ε)) : (run i p task rest).2.1.paxosLog = p.paxosLog := by
  unfold run
  split
  · rfl
  · dsimp only
    split
    · rfl
    · split <;> rfl

theorem run_index {i : ι} {p : TabletParticipant ε} {task : Task ε}
    {rest : List (Task ε)} {index : ℕ} {entry : PaxosLogEntry}
    (h : (run i p task rest).2.2 = some (index, entry)) :
    p.paxosLog.nextAvailableIndex = .ok index := by
  unfold run at h
  split at h
  · cases h
  · dsimp only at h
    split at h
    · cases h
    · split at h
      · rename_i hindex
        cases h
        exact hindex
      · cases h

theorem applyCalls_paxosLog (i : ι) (p : TabletParticipant ε) (calls : List (Call Callback)) :
    (applyCalls i p calls).2.paxosLog = p.paxosLog := by
  induction calls generalizing p with
  | nil => rfl
  | cons call calls ih =>
      simp only [applyCalls]
      split
      · exact callback_paxosLog p call
      · exact (ih _).trans (callback_paxosLog p call)

/-- The participants of a tablet. -/
def service (ι ε : Type) :
    Service ι Callback (TabletParticipant ε) (LocalAction ε) (Event ι ε) where
  new := ClientRequestHandler.new
  paxosLog p := p.paxosLog
  exception p := p.exception
  act := act
  setEntry i index entry p := learn i p index entry
  new_paxosLog := rfl
  act_paxosLog {i a p events p' proposal} h := by
    cases a with
    | request endpointId message =>
        cases h
        rfl
    | run =>
        simp only [act] at h
        split at h
        · cases h
        · rename_i task rest hqueue
          have hpaxosLog := run_paxosLog i p task rest
          rw [Option.some.inj h] at hpaxosLog
          exact hpaxosLog
  act_index {i a p events p' index entry} h := by
    cases a with
    | request endpointId message => cases h
    | run =>
        simp only [act] at h
        split at h
        · cases h
        · apply run_index (i := i)
          rw [Option.some.inj h]
  setEntry_paxosLog {i index entry p} h := by
    simp only [learn] at h ⊢
    split at h
    · rename_i paxosLog calls hset
      refine ⟨calls, ?_⟩
      split at h
      · cases h
      · rename_i hdefined
        rw [hset, if_neg hdefined, applyCalls_paxosLog]
    · cases h

/-! ## Over an agreed log the service is the tablet -/

def agreedAction : Service.AgreedAction ι (LocalAction ε) → Action ι ε
  | .act i (.request endpointId message) => .request i endpointId message
  | .act i .run => .run i
  | .choose k => .choose k
  | .learn i index => .learn i index

abbrev agreedState (t : Service.AgreedState ι (TabletParticipant ε)) : State ι ε where
  participants := t.participants
  agreedLog := t.agreedLog

variable [DecidableEq ι]

theorem next_agreed {t t' : Service.AgreedState ι (TabletParticipant ε)}
    {a : Service.AgreedAction ι (LocalAction ε)} {events : List (Event ι ε)}
    (h : (service ι ε).nextAgreed t a = some (events, t')) :
    next (agreedState t) (agreedAction a) = some (events, agreedState t') := by
  cases a with
  | act i a =>
      simp only [Service.nextAgreed] at h
      split at h
      · rename_i hlive
        cases a with
        | request endpointId message =>
            cases h
            exact if_pos hlive
        | run =>
            simp only [service, act] at h
            simp only [agreedAction, next]
            cases hqueue : (t.participants i).asyncQueue with
            | nil => simp [hqueue] at h
            | cons task rest =>
                simp only [hqueue, Option.some.injEq, Prod.mk.injEq] at h
                obtain ⟨rfl, rfl⟩ := h
                exact if_pos hlive
      · cases h
  | choose k =>
      simp only [Service.nextAgreed] at h
      simp only [agreedAction, next]
      split at h
      · rename_i hlength
        rw [if_pos hlength]
        cases hchoose : t.agreedLog.choose k with
        | none => simp [hchoose] at h
        | some agreedLog =>
            simp only [hchoose, Option.some.injEq, Prod.mk.injEq] at h
            obtain ⟨rfl, rfl⟩ := h
            rfl
      · cases h
  | learn i index =>
      simp only [Service.nextAgreed] at h
      simp only [agreedAction, next]
      cases hentry : t.agreedLog.entries[index]? with
      | none => simp [hentry] at h
      | some entry =>
          simp only [hentry] at h
          split at h
          · rename_i hlive
            simp only [Option.some.injEq, Prod.mk.injEq] at h
            obtain ⟨rfl, rfl⟩ := h
            exact if_pos hlive
          · cases h

theorem run_agreed {trace : List (Event ι ε)}
    {t : Service.AgreedState ι (TabletParticipant ε)}
    (h : (service ι ε).agreedMachine.system.Run trace t) :
    (machine ι ε).system.Run trace (agreedState t) :=
  Machine.run_rename agreedState agreedAction rfl next_agreed h

end UniversalDB.Tablet
