import UniversalDB.Model.Service

/-! # The logs of a service

A log does the same whether callbacks are registered or not. -/

namespace UniversalDB

namespace PaxosLog

variable {κ : Type}

@[simp] theorem withoutCallbacks_log (l : PaxosLog κ) : l.withoutCallbacks.log = l.log := rfl

@[simp] theorem withoutCallbacks_nextAvailableIndex (l : PaxosLog κ) :
    l.withoutCallbacks.nextAvailableIndex = l.nextAvailableIndex := rfl

@[simp] theorem withoutCallbacks_getAvailableIndices (l : PaxosLog κ) :
    l.withoutCallbacks.getAvailableIndices = l.getAvailableIndices := rfl

theorem withoutCallbacks_missingEntries (l : PaxosLog κ) (curLastIndex : ℕ)
    (subarrays : List IndexSubArray) :
    LogSyncer.missingEntries l.withoutCallbacks curLastIndex subarrays =
      LogSyncer.missingEntries l curLastIndex subarrays := by
  induction subarrays with
  | nil => rfl
  | cons subarray rest ih =>
      simp only [LogSyncer.missingEntries, ih]
      rfl

theorem withoutCallbacks_buildSyncResponse (l : PaxosLog κ) (request : SyncRequest) :
    LogSyncer.buildSyncResponse l.withoutCallbacks request =
      LogSyncer.buildSyncResponse l request := by
  simp only [LogSyncer.buildSyncResponse, withoutCallbacks_nextAvailableIndex,
    withoutCallbacks_missingEntries]
  rfl

theorem withoutCallbacks_propose {ε : Type} (m : MultiPaxosHandler ε) (l : PaxosLog κ)
    (draw : ℕ) (entry : PaxosLogEntry) :
    m.propose l.withoutCallbacks draw entry = m.propose l draw entry := rfl

theorem withoutCallbacks_setEntry {l l' : PaxosLog κ} {index : ℕ} {entry : PaxosLogEntry}
    {calls : List (Call κ)} (h : l.setEntry index entry = .ok (l', calls)) :
    ∃ calls', l.withoutCallbacks.setEntry index entry = .ok (l'.withoutCallbacks, calls') := by
  simp only [PaxosLog.setEntry, withoutCallbacks_nextAvailableIndex] at h ⊢
  rw [show l.withoutCallbacks.availableIndices = l.availableIndices from rfl]
  cases hlast : l.availableIndices.getLast? with
  | none => simp [hlast] at h
  | some last =>
      simp only [hlast] at h ⊢
      cases hfirst : l.nextAvailableIndex with
      | error exception => simp [hfirst, bind, Except.bind] at h
      | ok first =>
          simp only [hfirst, bind, Except.bind] at h ⊢
          split at h
          · rename_i hset
            cases h
            exact ⟨[], if_pos hset⟩
          · rename_i hset
            rw [if_neg hset]
            cases hnext : PaxosLog.nextAvailableIndex
                { l with
                  availableIndices := takeIndex l.availableIndices last index
                  log := l.log.insert index entry } with
            | error exception => simp [hnext] at h
            | ok next =>
                have hnext' : PaxosLog.nextAvailableIndex
                    { l.withoutCallbacks with
                      availableIndices := takeIndex l.availableIndices last index
                      log := l.withoutCallbacks.log.insert index entry } = .ok next := hnext
                simp only [hnext, pure, Except.pure] at h
                cases h
                simp only [hnext', pure, Except.pure]
                exact ⟨_, rfl⟩

end PaxosLog

namespace Service

variable {ι κ σ α δ : Type} {S : Service ι κ σ α δ} {i : ι}

@[simp] theorem setEntries_nil (p : σ) : S.setEntries i p [] = ([], p) := rfl

/-- What a participant that has not stopped has set on its log. -/
theorem setEntries_paxosLog {p : σ} {entries : List (ℕ × PaxosLogEntry)}
    (hlive : S.exception (S.setEntries i p entries).2 = none) :
    ∃ calls, (S.paxosLog p).withoutCallbacks.setEntries entries =
      .ok ((S.paxosLog (S.setEntries i p entries).2).withoutCallbacks, calls) := by
  induction entries generalizing p with
  | nil => exact ⟨[], rfl⟩
  | cons x rest ih =>
      obtain ⟨index, entry⟩ := x
      cases hexception : S.exception (S.setEntry i index entry p).2 with
      | some exception => simp [setEntries, hexception] at hlive
      | none =>
          simp only [setEntries, hexception, Option.isSome_none, Bool.false_eq_true, if_false]
            at hlive ⊢
          obtain ⟨calls, hset⟩ := S.setEntry_paxosLog hexception
          obtain ⟨calls₁, hset₁⟩ := PaxosLog.withoutCallbacks_setEntry hset
          obtain ⟨calls₂, hset₂⟩ := ih hlive
          refine ⟨calls₁ ++ calls₂, ?_⟩
          simp only [PaxosLog.setEntries, hset₁, hset₂, bind, Except.bind]
          rfl

/-- A participant sets entries of the agreed log, until a callback throws. -/
theorem run_setEntries [DecidableEq ι] {trace : List δ} {t : AgreedState ι σ}
    (h : S.agreedMachine.system.Run trace t) (hlive : S.exception (t.participants i) = none)
    {entries : List (ℕ × PaxosLogEntry)}
    (hentries : ∀ x ∈ entries, t.agreedLog.entries[x.1]? = some x.2) :
    S.agreedMachine.system.Run (trace ++ (S.setEntries i (t.participants i) entries).1)
      { t with
        participants := Function.update t.participants i
          (S.setEntries i (t.participants i) entries).2 } := by
  induction entries generalizing trace t with
  | nil => simpa using h
  | cons x rest ih =>
      obtain ⟨index, entry⟩ := x
      have hentry := hentries (index, entry) List.mem_cons_self
      have hnext : S.nextAgreed t (.learn i index) =
          some ((S.setEntry i index entry (t.participants i)).1,
            { t with
              participants := Function.update t.participants i
                (S.setEntry i index entry (t.participants i)).2 }) := by
        simp [nextAgreed, hentry, hlive]
      have hrun := h.step ⟨.learn i index, trivial, hnext⟩
      simp only [setEntries]
      cases hexception : S.exception (S.setEntry i index entry (t.participants i)).2 with
      | some exception => simpa using hrun
      | none =>
          have hrest := ih hrun (by simpa using hexception)
            (fun y hy => hentries y (List.mem_cons_of_mem _ hy))
          simpa [Function.update_idem] using hrest

end Service

end UniversalDB
