import UniversalDB.Verification.PaxosLog.Replay

/-! # Replicas of an agreed log

A replica holds entries of an agreed log `G` only, and has run the callbacks in front of its
first gap. Its state is then a function of a prefix of `G`. -/

namespace UniversalDB.PaxosLog

variable {κ σ ω : Type} {run : σ → Call κ → Except UniversalException (σ × List ω)}
  {registrations : List (EntryContentCase × κ)} {s₀ s s' : σ} {sent sent' : List ω}
  {G : List PaxosLogEntry}

/-- All entries of `G` can be run one after the other, with this result. -/
def Replayed (run : σ → Call κ → Except UniversalException (σ × List ω))
    (registrations : List (EntryContentCase × κ)) (s₀ : σ) (G : List PaxosLogEntry) (s : σ)
    (sent : List ω) : Prop :=
  runCalls run s₀ (callsDue registrations (fun i => G[i]?) G.length) = .ok (s, sent)

theorem replayed_nil : Replayed run registrations s₀ [] s₀ [] := rfl

theorem Replayed.unique (h : Replayed run registrations s₀ G s sent)
    (h' : Replayed run registrations s₀ G s' sent') : s = s' ∧ sent = sent' := by
  rw [Replayed] at h h'
  rw [h, Except.ok.injEq, Prod.mk.injEq] at h'
  exact h'

theorem Replayed.concat {e : PaxosLogEntry} (h : Replayed run registrations s₀ G s sent)
    (hcalls : runCalls run s (callsFor registrations G.length e) = .ok (s', sent')) :
    Replayed run registrations s₀ (G ++ [e]) s' (sent ++ sent') := by
  have hbefore : callsDue registrations (fun i => (G ++ [e])[i]?) G.length =
      callsDue registrations (fun i => G[i]?) G.length := by
    apply callsDue_congr
    intro i hi
    exact List.getElem?_append_left hi
  have hlast : (G ++ [e])[G.length]? = some e := List.getElem?_concat_length
  have hdue : callsDue registrations (fun i => (G ++ [e])[i]?) (G.length + 1) =
      callsDue registrations (fun i => G[i]?) G.length ++
        callsFor registrations G.length e := by
    rw [← hbefore]
    exact callsDue_succ hlast
  rw [Replayed, List.length_append, List.length_singleton, hdue, runCalls_append_ok _ h, hcalls]
  rfl

/-- The rule for an invariant of all prefixes of `G`: each entry can be run in the state
that the entries before it lead to, and keeps the invariant. -/
theorem replayed_take {I : List PaxosLogEntry → σ → List ω → Prop} (hnil : I [] s₀ [])
    (hstep : ∀ k e s sent, G[k]? = some e →
      Replayed run registrations s₀ (G.take k) s sent → I (G.take k) s sent →
        ∃ s' sent', runCalls run s (callsFor registrations k e) = .ok (s', sent') ∧
          I (G.take k ++ [e]) s' (sent ++ sent')) :
    ∀ k ≤ G.length, ∃ s sent, Replayed run registrations s₀ (G.take k) s sent ∧
      I (G.take k) s sent := by
  intro k
  induction k with
  | zero => exact fun _ => ⟨s₀, [], replayed_nil, hnil⟩
  | succ k ih =>
      intro hk
      obtain ⟨s, sent, hreplayed, hI⟩ := ih (by omega)
      have he : G[k]? = some G[k] := List.getElem?_eq_getElem (by omega)
      obtain ⟨s', sent', hcalls, hI'⟩ := hstep k G[k] s sent he hreplayed hI
      have htake : G.take (k + 1) = G.take k ++ [G[k]] := by
        rw [List.take_add_one, he]
        rfl
      have hlength : (G.take k).length = k := List.length_take_of_le (by omega)
      rw [htake]
      exact ⟨s', sent ++ sent', hreplayed.concat (by rw [hlength]; exact hcalls), hI'⟩

structure Replica (run : σ → Call κ → Except UniversalException (σ × List ω))
    (registrations : List (EntryContentCase × κ)) (s₀ : σ) (G : List PaxosLogEntry)
    (l : PaxosLog κ) (s : σ) : Prop where
  subMap : ∀ j e, l.log j = some e → G[j]? = some e
  applied : ∃ m sent, Applied run registrations s₀ l s m sent

theorem replica_register :
    Replica run registrations s₀ G (register registrations) s₀ := by
  refine ⟨?_, 0, [], applied_register⟩
  intro j e he
  rw [register_log] at he
  cases he

/-- The agreed log may grow. -/
theorem Replica.append {l : PaxosLog κ} (h : Replica run registrations s₀ G l s)
    (rest : List PaxosLogEntry) : Replica run registrations s₀ (G ++ rest) l s := by
  refine ⟨?_, h.applied⟩
  intro j e he
  have hget := h.subMap j e he
  rw [List.getElem?_append_left (List.getElem?_eq_some_iff.mp hget).1]
  exact hget

/-- Up to its first gap a log that holds entries of `G` only is a prefix of `G`. -/
theorem callsDue_of_subMap {l : PaxosLog κ} {m : ℕ}
    (hsub : ∀ j e, l.log j = some e → G[j]? = some e) (hgap : l.log.FirstGap m) :
    m ≤ G.length ∧ callsDue registrations l.log m =
      callsDue registrations (fun i => (G.take m)[i]?) (G.take m).length := by
  have hlog : ∀ i < m, l.log i = G[i]? := by
    intro i hi
    obtain ⟨e, he⟩ := Option.isSome_iff_exists.mp (hgap.below i hi)
    rw [he, hsub i e he]
  have hm : m ≤ G.length := by
    by_contra hlt
    have hsome := hgap.below G.length (by omega)
    rw [hlog _ (by omega), List.getElem?_eq_none le_rfl] at hsome
    cases hsome
  refine ⟨hm, ?_⟩
  rw [List.length_take_of_le hm]
  apply callsDue_congr
  intro i hi
  rw [hlog i hi, List.getElem?_take_of_lt hi]

theorem Applied.take {l : PaxosLog κ} {m : ℕ}
    (h : Applied run registrations s₀ l s m sent)
    (hsub : ∀ j e, l.log j = some e → G[j]? = some e) :
    m ≤ G.length ∧ Replayed run registrations s₀ (G.take m) s sent := by
  obtain ⟨hm, hdue⟩ := callsDue_of_subMap hsub h.gap
  refine ⟨hm, ?_⟩
  rw [Replayed, ← hdue]
  exact h.replayed

/-- The state of a replica is what the entries below its next available index lead to. -/
theorem Replica.nextAvailableIndex {l : PaxosLog κ}
    (h : Replica run registrations s₀ G l s) :
    ∃ m sent, l.nextAvailableIndex = .ok m ∧ m ≤ G.length ∧
      Replayed run registrations s₀ (G.take m) s sent := by
  obtain ⟨m, sent, happlied⟩ := h.applied
  exact ⟨m, sent, happlied.nextAvailableIndex, happlied.take h.subMap⟩

/-- If all prefixes of the agreed log can be run, a replica can learn each entry. -/
theorem Replica.setEntry {l : PaxosLog κ} (h : Replica run registrations s₀ G l s)
    (hall : ∀ k ≤ G.length, ∃ s sent, Replayed run registrations s₀ (G.take k) s sent)
    {index : ℕ} {e : PaxosLogEntry} (he : G[index]? = some e) (hindex : index < 2 ^ 64 - 1) :
    ∃ l' calls s' m sent sent', l.setEntry index e = .ok (l', calls) ∧
      runCalls run s calls = .ok (s', sent') ∧ Replica run registrations s₀ G l' s' ∧
      m ≤ G.length ∧ Replayed run registrations s₀ (G.take m) s' (sent ++ sent') := by
  obtain ⟨m, sent, happlied⟩ := h.applied
  obtain ⟨l', calls, m', hset, hlog, hgap', hreplay, happlied'⟩ := happlied.setEntry hindex e
  have hsub : l'.log.SubMap fun j => G[j]? := by
    rw [hlog]
    exact KeyMap.SubMap.insert h.subMap he
  obtain ⟨hm', hdue⟩ := callsDue_of_subMap hsub hgap'
  obtain ⟨s', sent'', hreplayed⟩ := hall m' hm'
  rw [Replayed, ← hdue, hreplay] at hreplayed
  cases hcalls : runCalls run s calls with
  | error exception =>
      rw [hcalls] at hreplayed
      cases hreplayed
  | ok r =>
      obtain ⟨s₁, sent₁⟩ := r
      have happlied₁ := happlied' s₁ sent₁ hcalls
      exact ⟨l', calls, s₁, m', sent, sent₁, hset, hcalls, ⟨hsub, m', _, happlied₁⟩,
        happlied₁.take hsub⟩

/-! ## Logs that are complete -/

/-- The log holds `n` entries without a gap, all of which have been run. -/
structure Complete (run : σ → Call κ → Except UniversalException (σ × List ω))
    (registrations : List (EntryContentCase × κ)) (s₀ : σ) (l : PaxosLog κ) (s : σ) (n : ℕ) :
    Prop where
  applied : ∃ sent, Applied run registrations s₀ l s n sent
  unset : ∀ j, n ≤ j → l.log j = none

theorem complete_register : Complete run registrations s₀ (register registrations) s₀ 0 := by
  refine ⟨⟨[], applied_register⟩, ?_⟩
  intro j _
  rw [register_log]
  rfl

theorem Complete.nextAvailableIndex {l : PaxosLog κ} {n : ℕ}
    (h : Complete run registrations s₀ l s n) : l.nextAvailableIndex = .ok n := by
  obtain ⟨sent, happlied⟩ := h.applied
  exact happlied.nextAvailableIndex

/-- The callbacks of the next entry are run when it is set. -/
theorem Complete.setEntry {l : PaxosLog κ} {n : ℕ} (h : Complete run registrations s₀ l s n)
    (hn : n < 2 ^ 64 - 1) {e : PaxosLogEntry}
    (hcalls : runCalls run s (callsFor registrations n e) = .ok (s', sent')) :
    ∃ l' calls, l.setEntry n e = .ok (l', calls) ∧ runCalls run s calls = .ok (s', sent') ∧
      Complete run registrations s₀ l' s' (n + 1) := by
  obtain ⟨sent, happlied⟩ := h.applied
  obtain ⟨l', calls, hset, hspec⟩ := happlied.wellFormed.setEntry hn e
  have hlog : ∀ j, l'.log j = if j = n then some e else l.log j := by
    intro j
    rw [hspec.log, KeyMap.insert_apply, h.unset n le_rfl, Option.getD_none]
  have hgap : l'.log.FirstGap (n + 1) := by
    constructor
    · rw [hlog, if_neg (by omega)]
      exact h.unset _ (by omega)
    · intro i hi
      rw [hlog]
      split
      · rfl
      · exact happlied.gap.below i (by omega)
  have hdue := hspec.callsDue happlied.callbacks happlied.gap hgap
  have hbelow : callsDue registrations l'.log n = callsDue registrations l.log n := by
    apply callsDue_congr
    intro i hi
    rw [hlog, if_neg (by omega)]
  have hlast : l'.log n = some e := by rw [hlog, if_pos rfl]
  obtain rfl : callsFor registrations n e = calls := by
    rw [callsDue_succ hlast, hbelow] at hdue
    exact List.append_cancel_left hdue
  refine ⟨l', _, hset, hcalls, ⟨sent ++ sent', hspec.wellFormed, ?_, hgap, ?_⟩, ?_⟩
  · rw [hspec.callbacks, happlied.callbacks]
  · rw [hdue, runCalls_append_ok _ happlied.replayed, hcalls]
    rfl
  · intro j hj
    rw [hlog, if_neg (by omega)]
    exact h.unset j (by omega)

end UniversalDB.PaxosLog
