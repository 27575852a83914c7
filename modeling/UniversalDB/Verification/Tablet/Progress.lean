import UniversalDB.Verification.Tablet.Replay

/-! # How far a participant has come in the agreed log -/

namespace UniversalDB.Tablet

open ClientRequestHandler

variable {ι ε : Type}

/-- The exception of a write at or before the last access timestamp. -/
def pastError : UniversalException := ⟨"Should never be writing to the past."⟩

/-- The store is coupled with the replay of the first `k` entries. -/
def StoreAt (R : KVStore → KVStore → Prop) (G : List PaxosLogEntry) (k : ℕ)
    (kvstore : KVStore) : Prop :=
  ∃ store, replay (G.take k) = .ok store ∧ R store kvstore

/-- The id map holds the ids of the first `k` entries. -/
structure Registered (G : List PaxosLogEntry) (k : ℕ) (requestIdMap : KeyMap String ℕ) :
    Prop where
  sound : ∀ id j, requestIdMap id = some j →
    j < k ∧ ∃ entry, G[j]? = some entry ∧ requestId entry = some id
  complete : ∀ j < k, ∀ entry id, G[j]? = some entry → requestId entry = some id →
    (requestIdMap id).isSome

/-- Coupled stores for which a write that is legal in the log never throws. -/
def Safe (R : KVStore → KVStore → Prop) : Prop :=
  ∀ store store' entry store₁, R store store' → replayEntry store entry = .ok store₁ →
    ∃ store₁', replayEntry store' entry = .ok store₁'

theorem safe_eq : Safe Eq := by
  rintro store _ entry store₁ rfl h
  exact ⟨store₁, h⟩

/-- What a callback can stop a participant with: a write that is legal in the log, where
the stores allow it, or an undefined read. -/
def Stops (R : KVStore → KVStore → Prop) (exception : UniversalException) : Prop :=
  (exception = pastError ∧ ¬ Safe R) ∨ exception = undefinedRead

/-- Every prefix of the log can be replayed. -/
def Legal (G : List PaxosLogEntry) : Prop := ∀ k, ∃ store, replay (G.take k) = .ok store

/-- An entry of the log and what the store returns for it at its position. -/
def AppliedAs (G : List PaxosLogEntry) (j : ℕ) (value : Option String) : Prop :=
  ∃ entry store, G[j]? = some entry ∧ replay (G.take j) = .ok store ∧
    value = entryValue store entry

theorem registered_zero (G : List PaxosLogEntry) : Registered G 0 KeyMap.empty := by
  constructor <;> simp

/-- An index whose entry has no request id. -/
theorem Registered.skip {G : List PaxosLogEntry} {k : ℕ} {requestIdMap : KeyMap String ℕ}
    (h : Registered G k requestIdMap) {entry : PaxosLogEntry} (hentry : G[k]? = some entry)
    (hid : requestId entry = none) : Registered G (k + 1) requestIdMap := by
  constructor
  · intro id j hj
    obtain ⟨hlt, hin⟩ := h.sound id j hj
    exact ⟨by omega, hin⟩
  · intro j hj entry' id hentry' hid'
    rcases Nat.lt_or_eq_of_le (Nat.lt_succ_iff.mp hj) with hlt | heq
    · exact h.complete j hlt entry' id hentry' hid'
    · subst heq
      rw [hentry] at hentry'
      cases hentry'
      rw [hid] at hid'
      cases hid'

/-- An id that is in the map already keeps its index. -/
theorem Registered.insert {G : List PaxosLogEntry} {k : ℕ} {requestIdMap : KeyMap String ℕ}
    (h : Registered G k requestIdMap) {entry : PaxosLogEntry} (hentry : G[k]? = some entry)
    {newId : String} (hid : requestId entry = some newId) :
    Registered G (k + 1) (requestIdMap.insert newId k) := by
  constructor
  · intro id j hj
    rw [KeyMap.insert_apply] at hj
    split at hj
    · rename_i heq
      subst id
      cases hold : requestIdMap newId with
      | none =>
          rw [hold] at hj
          cases hj
          exact ⟨by simp, entry, hentry, hid⟩
      | some j' =>
          simp only [hold, Option.getD_some, Option.some.injEq] at hj
          subst j
          obtain ⟨hlt, hin⟩ := h.sound newId j' hold
          exact ⟨by omega, hin⟩
    · obtain ⟨hlt, hin⟩ := h.sound id j hj
      exact ⟨by omega, hin⟩
  · intro j hj entry' id hentry' hid'
    rw [KeyMap.insert_apply]
    split
    · rfl
    · rename_i hne
      rcases Nat.lt_or_eq_of_le (Nat.lt_succ_iff.mp hj) with hlt | heq
      · exact h.complete j hlt entry' id hentry' hid'
      · subst heq
        rw [hentry] at hentry'
        cases hentry'
        rw [hid] at hid'
        exact absurd (Option.some.inj hid').symm hne

theorem Registered.absorb {G : List PaxosLogEntry} {k : ℕ} {requestIdMap : KeyMap String ℕ}
    (h : Registered G k requestIdMap) {entry : PaxosLogEntry} (hentry : G[k]? = some entry) :
    Registered G (k + 1) ((requestId entry).elim requestIdMap
      fun id => requestIdMap.insert id k) := by
  cases hid : requestId entry with
  | none => exact h.skip hentry hid
  | some newId => exact h.insert hentry hid

theorem replayEntry_error {store : KVStore} {entry : PaxosLogEntry}
    {exception : UniversalException} (h : replayEntry store entry = .error exception) :
    exception = pastError := by
  cases entry with
  | write content => exact KVStore.write_error h
  | _ => cases h

theorem StoreAt.appliedAs {R : KVStore → KVStore → Prop} (hR : Coupling R)
    {G : List PaxosLogEntry} {k : ℕ} {kvstore : KVStore} (h : StoreAt R G k kvstore)
    {entry : PaxosLogEntry} (hentry : G[k]? = some entry) :
    AppliedAs G k (entryValue kvstore entry) := by
  obtain ⟨store, hreplay, hcoupled⟩ := h
  refine ⟨entry, store, hentry, hreplay, ?_⟩
  exact entryValue_of_ahead (hR.ahead hcoupled) entry

/-- One more entry of a legal log. -/
theorem StoreAt.absorb {R : KVStore → KVStore → Prop} (hR : Coupling R)
    {G : List PaxosLogEntry} (hlegal : Legal G) {k : ℕ} {p p' : TabletParticipant ε}
    (h : StoreAt R G k p.kvstore) {entry : PaxosLogEntry} (hentry : G[k]? = some entry)
    (habsorbed : Absorbed p k entry p') :
    (p'.exception = none ∧ StoreAt R G (k + 1) p'.kvstore) ∨
      ∃ exception, p'.exception = some exception ∧ Stops R exception ∧
        StoreAt R G k p'.kvstore := by
  obtain ⟨store, hreplay, hcoupled⟩ := h
  obtain ⟨store₁, hreplay₁⟩ := hlegal (k + 1)
  have hstep : replayEntry store entry = .ok store₁ := by
    rw [← replay_concat hreplay entry, ← take_succ_of_getElem? hentry]
    exact hreplay₁
  rcases habsorbed.outcome with ⟨kvstore, hok, rfl, hnone⟩ |
    ⟨exception, herror, hsame, hstop⟩ | ⟨hsame, hstop⟩
  · exact .inl ⟨hnone, store₁, hreplay₁, hR.replayEntry hcoupled hstep hok⟩
  · refine .inr ⟨exception, hstop, .inl ⟨replayEntry_error herror, ?_⟩, store, hreplay, ?_⟩
    · intro hsafe
      obtain ⟨store₁', hok⟩ := hsafe store p.kvstore entry store₁ hcoupled hstep
      rw [herror] at hok
      cases hok
    · rw [hsame]
      exact hcoupled
  · refine .inr ⟨_, hstop, .inr rfl, store, hreplay, ?_⟩
    rw [hsame]
    exact hcoupled

/-- Indices of one participant come in ascending order. -/
def AppliedInOrder (i : ι) (events : List (Event ι ε)) : Prop :=
  events.Pairwise fun x y => ∀ j value j' value', x = .applied i j value →
    y = .applied i j' value' → j < j'

/-- Where a participant is after the calls for the indices up to `last`: it has applied
them all, or has stopped. -/
structure Progress (R : KVStore → KVStore → Prop) (G : List PaxosLogEntry) (last : ℕ)
    (k : ℕ) (p : TabletParticipant ε) : Prop where
  le : k ≤ last
  store : StoreAt R G k p.kvstore
  outcome : (p.exception = none ∧ k = last ∧ Registered G last p.requestIdMap) ∨
    ∃ exception, p.exception = some exception ∧ Stops R exception

/-- What the calls for the indices from `k` up to `last` leave of a participant. -/
structure AppliedBetween (R : KVStore → KVStore → Prop) (G : List PaxosLogEntry) (i : ι)
    (k last : ℕ) (p : TabletParticipant ε) (events : List (Event ι ε))
    (p' : TabletParticipant ε) (k' : ℕ) : Prop where
  paxosLog : p'.paxosLog = p.paxosLog
  asyncQueue : p'.asyncQueue = p.asyncQueue
  progress : Progress R G last k' p'
  le : k ≤ k'
  inOrder : AppliedInOrder i events
  events : ∀ e ∈ events, ∃ j value, k ≤ j ∧ j < k' ∧ e = .applied i j value ∧
    AppliedAs G j value

variable {R : KVStore → KVStore → Prop} {G : List PaxosLogEntry} {i : ι}
  {p p₁ p' : TabletParticipant ε}

theorem appliedBetween_self {k : ℕ} (hlive : p.exception = none)
    (hstore : StoreAt R G k p.kvstore) (hregistered : Registered G k p.requestIdMap) :
    AppliedBetween R G i k k p [] p k where
  paxosLog := rfl
  asyncQueue := rfl
  progress := ⟨le_rfl, hstore, .inl ⟨hlive, rfl, hregistered⟩⟩
  le := le_rfl
  inOrder := .nil
  events := by simp

/-- The calls for one index stop the participant. -/
theorem appliedBetween_stopped {k last : ℕ} {entry : PaxosLogEntry}
    (habsorbed : Absorbed p k entry p') (hstore : StoreAt R G k p'.kvstore)
    {exception : UniversalException} (hstopped : p'.exception = some exception)
    (hstops : Stops R exception) (hle : k ≤ last) :
    AppliedBetween R G i k last p [] p' k where
  paxosLog := habsorbed.paxosLog
  asyncQueue := habsorbed.asyncQueue
  progress := ⟨hle, hstore, .inr ⟨exception, hstopped, hstops⟩⟩
  le := le_rfl
  inOrder := .nil
  events := by simp

/-- One more index in front. -/
theorem AppliedBetween.cons {k last k' : ℕ} {entry : PaxosLogEntry} {value : Option String}
    {events₁ events : List (Event ι ε)} (habsorbed : Absorbed p k entry p₁)
    (hevents₁ : events₁ = [] ∨ events₁ = [.applied i k value])
    (happlied : AppliedAs G k value)
    (h : AppliedBetween R G i (k + 1) last p₁ events p' k') :
    AppliedBetween R G i k last p (events₁ ++ events) p' k' := by
  have hle := h.le
  constructor
  · exact h.paxosLog.trans habsorbed.paxosLog
  · exact h.asyncQueue.trans habsorbed.asyncQueue
  · exact h.progress
  · omega
  · rcases hevents₁ with rfl | rfl
    · exact h.inOrder
    · refine List.pairwise_cons.mpr ⟨?_, h.inOrder⟩
      intro y hy j value j' value' hx hy'
      obtain ⟨j'', value'', hge, -, heq, -⟩ := h.events y hy
      rw [heq] at hy'
      cases hx
      cases hy'
      omega
  · intro e he
    rcases List.mem_append.mp he with hfirst | hrest
    · rcases hevents₁ with rfl | rfl
      · cases hfirst
      · exact ⟨k, value, le_rfl, by omega, List.mem_singleton.mp hfirst, happlied⟩
    · obtain ⟨j, value, hge, hlt, heq, hvalue⟩ := h.events e hrest
      exact ⟨j, value, by omega, hlt, heq, hvalue⟩

/-- The loop of `set_entry` over the indices it releases. -/
theorem applyCalls_callsBetween (hR : Coupling R) (hlegal : Legal G) {l : PaxosLog Callback}
    (i : ι) (hcallbacks : l.callbacks = (PaxosLog.register registrations).callbacks) (d : ℕ) :
    ∀ {k : ℕ} {p : TabletParticipant ε}, p.exception = none → StoreAt R G k p.kvstore →
      Registered G k p.requestIdMap →
      (∀ j, k ≤ j → j < k + d → ∃ entry, l.log j = some entry ∧ G[j]? = some entry) →
      ∃ events p' k', applyCalls i p (l.callsBetween k (k + d)) = (events, p') ∧
        AppliedBetween R G i k (k + d) p events p' k' := by
  induction d with
  | zero =>
      intro k p hlive hstore hregistered _
      rw [Nat.add_zero, PaxosLog.callsBetween_self]
      exact ⟨[], p, k, rfl, appliedBetween_self hlive hstore hregistered⟩
  | succ d ih =>
      intro k p hlive hstore hregistered hlog
      obtain ⟨entry, hentry, hG⟩ := hlog k le_rfl (by omega)
      obtain ⟨events₁, p₁, hfirst, habsorbed, hevents₁⟩ :=
        applyCalls_callsAt i hcallbacks hentry hlive
      rw [PaxosLog.callsBetween_succ, applyCalls_append i p _ _ hlive, hfirst]
      rcases hstore.absorb hR hlegal hG habsorbed with
        ⟨hlive₁, hstore₁⟩ | ⟨exception, hstopped, hstops, hstore₁⟩
      · have hregistered₁ : Registered G (k + 1) p₁.requestIdMap := by
          rw [habsorbed.requestIdMap]
          exact hregistered.absorb hG
        obtain ⟨events₂, p₂, k', hrest, hbetween⟩ :=
          ih hlive₁ hstore₁ hregistered₁ fun j hj hj' => hlog j (by omega) (by omega)
        have hlast : k + 1 + d = k + (d + 1) := by omega
        rw [hlast] at hbetween
        refine ⟨events₁ ++ events₂, p₂, k', by simp [hlive₁, hrest], ?_⟩
        apply hbetween.cons habsorbed _ (hstore.appliedAs hR hG)
        exact hevents₁.imp_right And.left
      · -- a participant that stops shows nothing for the index
        rcases hevents₁ with rfl | ⟨-, hnone⟩
        · exact ⟨[], p₁, k, by simp [hstopped],
            appliedBetween_stopped habsorbed hstore₁ hstopped hstops (by omega)⟩
        · rw [hstopped] at hnone
          cases hnone

end UniversalDB.Tablet
