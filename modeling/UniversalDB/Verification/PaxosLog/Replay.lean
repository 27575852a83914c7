import UniversalDB.Verification.PaxosLog.Callbacks

/-! # The state of the owner of callbacks

`run` is what a callback does to the state of its owner. When the owner has run all calls
of a log, its state is what the calls that are due make of the first state. -/

namespace UniversalDB.PaxosLog

variable {κ σ ω : Type} {run : σ → Call κ → Except UniversalException (σ × List ω)}
  {registrations : List (EntryContentCase × κ)} {s₀ s s' : σ} {sent sent' : List ω}

/-! ## Calls -/

theorem runCalls_singleton (s : σ) (call : Call κ) :
    runCalls run s [call] = run s call := by
  simp only [runCalls, bind, Except.bind]
  cases run s call with
  | error exception => rfl
  | ok r => simp [pure, Except.pure]

theorem runCalls_append_ok {calls₁ : List (Call κ)} (calls₂ : List (Call κ))
    (h : runCalls run s calls₁ = .ok (s', sent)) :
    runCalls run s (calls₁ ++ calls₂) =
      (runCalls run s' calls₂).map fun r => (r.1, sent ++ r.2) := by
  induction calls₁ generalizing s sent with
  | nil =>
      cases h
      rw [List.nil_append]
      cases runCalls run s' calls₂ <;> rfl
  | cons call calls₁ ih =>
      simp only [runCalls, bind, Except.bind] at h
      simp only [List.cons_append, runCalls, bind, Except.bind]
      cases hcall : run s call with
      | error exception =>
          rw [hcall] at h
          cases h
      | ok r =>
          rw [hcall] at h
          simp only at h
          cases hrest : runCalls run r.1 calls₁ with
          | error exception =>
              rw [hrest] at h
              cases h
          | ok r₁ =>
              rw [hrest] at h
              cases h
              simp only [ih hrest]
              cases runCalls run r₁.1 calls₂ with
              | error exception => rfl
              | ok r₂ => simp [Except.map, pure, Except.pure]

theorem runCalls_append_error {calls₁ : List (Call κ)} (calls₂ : List (Call κ))
    {exception : UniversalException} (h : runCalls run s calls₁ = .error exception) :
    runCalls run s (calls₁ ++ calls₂) = .error exception := by
  induction calls₁ generalizing s with
  | nil => cases h
  | cons call calls₁ ih =>
      simp only [runCalls, bind, Except.bind] at h
      simp only [List.cons_append, runCalls, bind, Except.bind]
      cases hcall : run s call with
      | error exception' =>
          rw [hcall] at h
          exact h
      | ok r =>
          rw [hcall] at h
          simp only at h
          cases hrest : runCalls run r.1 calls₁ with
          | error exception' =>
              rw [hrest] at h
              cases h
              simp only [ih hrest]
          | ok r₁ =>
              rw [hrest] at h
              cases h

/-- The calls for an entry at an index. -/
def callsFor (registrations : List (EntryContentCase × κ)) (index : ℕ)
    (entry : PaxosLogEntry) : List (Call κ) :=
  (registrations.filter fun r => r.1 = entry.entryContentCase).map fun r =>
    ⟨r.2, index, entry⟩

theorem callsDue_succ {log : KeyMap ℕ PaxosLogEntry} {m : ℕ} {entry : PaxosLogEntry}
    (h : log m = some entry) :
    callsDue registrations log (m + 1) =
      callsDue registrations log m ++ callsFor registrations m entry := by
  simp [callsDue, List.range_succ, h, callsFor]

/-- The calls of a `setEntry` are those by which more are due. -/
theorem SetEntry.callsDue {l l' : PaxosLog κ} {index : ℕ} {entry : PaxosLogEntry}
    {calls : List (Call κ)} (h : l.SetEntry index entry l' calls)
    (hcallbacks : l.callbacks = (register registrations).callbacks) {m m' : ℕ}
    (hgap : l.log.FirstGap m) (hgap' : l'.log.FirstGap m') :
    PaxosLog.callsDue registrations l'.log m' =
      PaxosLog.callsDue registrations l.log m ++ calls := by
  have hsub : l.log.SubMap l'.log := by
    rw [h.log]
    exact KeyMap.subMap_insert _ _ _
  have hcallbacks' : l'.callbacks = (register registrations).callbacks := by
    rw [h.callbacks, hcallbacks]
  have hbelow : l'.callsBetween 0 m = l.callsBetween 0 m := by
    apply callsBetween_congr h.callbacks
    intro i hi
    obtain ⟨e, he⟩ := Option.isSome_iff_exists.mp (hgap.below i hi)
    rw [he, hsub i e he]
  rw [← callsBetween_eq_callsDue hcallbacks' hgap', ← callsBetween_eq_callsDue hcallbacks hgap,
    h.calls m m' hgap hgap', ← hbelow]
  exact (callsBetween_append l' (Nat.zero_le m) (hgap.le_of_subMap hgap' hsub)).symm

/-! ## Owners -/

/-- The owner of a log has run all its calls up to the first gap `m`. `sent` is what the
callbacks have sent. -/
structure Applied (run : σ → Call κ → Except UniversalException (σ × List ω))
    (registrations : List (EntryContentCase × κ)) (s₀ : σ) (l : PaxosLog κ) (s : σ) (m : ℕ)
    (sent : List ω) : Prop where
  wellFormed : l.WellFormed
  callbacks : l.callbacks = (register registrations).callbacks
  gap : l.log.FirstGap m
  replayed : runCalls run s₀ (callsDue registrations l.log m) = .ok (s, sent)

theorem applied_register : Applied run registrations s₀ (register registrations) s₀ 0 [] := by
  refine ⟨register_wellFormed _, rfl, ?_, rfl⟩
  constructor
  · simp
  · intro i hi
    omega

theorem Applied.nextAvailableIndex {l : PaxosLog κ} {m : ℕ}
    (h : Applied run registrations s₀ l s m sent) : l.nextAvailableIndex = .ok m :=
  h.wellFormed.nextAvailableIndex_eq.mpr h.gap

/-- A `setEntry` succeeds, and if the owner can run its calls, it has run all of them. -/
theorem Applied.setEntry {l : PaxosLog κ} {m : ℕ}
    (h : Applied run registrations s₀ l s m sent) {index : ℕ} (hindex : index < 2 ^ 64 - 1)
    (entry : PaxosLogEntry) :
    ∃ l' calls m', l.setEntry index entry = .ok (l', calls) ∧
      l'.log = l.log.insert index entry ∧ l'.log.FirstGap m' ∧
      runCalls run s₀ (callsDue registrations l'.log m') =
        (runCalls run s calls).map (fun r => (r.1, sent ++ r.2)) ∧
      ∀ s' sent', runCalls run s calls = .ok (s', sent') →
        Applied run registrations s₀ l' s' m' (sent ++ sent') := by
  obtain ⟨l', calls, hset, hspec⟩ := h.wellFormed.setEntry hindex entry
  obtain ⟨m', -, hgap'⟩ := hspec.wellFormed.nextAvailableIndex
  have hreplay : runCalls run s₀ (callsDue registrations l'.log m') =
      (runCalls run s calls).map (fun r => (r.1, sent ++ r.2)) := by
    rw [hspec.callsDue h.callbacks h.gap hgap']
    exact runCalls_append_ok calls h.replayed
  refine ⟨l', calls, m', hset, hspec.log, hgap', hreplay, ?_⟩
  intro s' sent' hcalls
  refine ⟨hspec.wellFormed, ?_, hgap', ?_⟩
  · rw [hspec.callbacks, h.callbacks]
  · rw [hreplay, hcalls]
    rfl

end UniversalDB.PaxosLog
