import UniversalDB.Model.Tablet
import UniversalDB.Verification.KVStore
import UniversalDB.Verification.PaxosLog.Callbacks

/-! # The store as a function of the log -/

namespace UniversalDB.Tablet

open ClientRequestHandler

variable {ι ε : Type}

/-- The effect of an entry on a store, if the store takes it. -/
def replayEntry (store : KVStore) : PaxosLogEntry → Except UniversalException KVStore
  | .read content =>
      .ok (store.lookup (StringValue.value content.key)
        (UInt64Value.value content.timestamp)).2
  | .write content =>
      store.write (StringValue.value content.key) (StringValue.value content.value)
        (UInt64Value.value content.timestamp)
  | _ => .ok store

/-- The read that is named by a logged entry, where it is defined. -/
def readLogged (kvstore : KVStore) (content : Read) : Option String × KVStore :=
  kvstore.lookup (StringValue.value content.key) (UInt64Value.value content.timestamp)

/-- What a store returns for an entry. -/
def entryValue (store : KVStore) : PaxosLogEntry → Option String
  | .read content => (readLogged store content).1
  | _ => none

/-- Replays entries on an empty store. -/
def replay (entries : List PaxosLogEntry) : Except UniversalException KVStore :=
  entries.foldlM replayEntry .empty

theorem replay_concat {entries : List PaxosLogEntry} {store : KVStore}
    (h : replay entries = .ok store) (entry : PaxosLogEntry) :
    replay (entries ++ [entry]) = replayEntry store entry := by
  rw [replay, List.foldlM_append]
  rw [replay] at h
  rw [h]
  change (replayEntry store entry >>= pure) = _
  rw [bind_pure]

theorem take_succ_of_getElem? {entries : List PaxosLogEntry} {k : ℕ} {entry : PaxosLogEntry}
    (h : entries[k]? = some entry) : entries.take (k + 1) = entries.take k ++ [entry] := by
  rw [List.take_add_one, h]
  rfl

/-- Replaying a longer prefix starts with replaying the shorter one. -/
theorem replay_prefix {entries rest : List PaxosLogEntry} {store : KVStore}
    (h : replay (entries ++ rest) = .ok store) : ∃ store', replay entries = .ok store' := by
  rw [replay, List.foldlM_append] at h
  cases hstart : replay entries with
  | ok store' => exact ⟨store', rfl⟩
  | error exception =>
      rw [replay] at hstart
      rw [hstart] at h
      cases h

/-- The request id of an entry. -/
def requestId : PaxosLogEntry → Option String
  | .read content => some (StringValue.value content.requestId)
  | .write content => some (StringValue.value content.requestId)
  | _ => none

/-! ## Versions -/

theorem replayEntry_versions {store store' : KVStore} {entry : PaxosLogEntry}
    (h : replayEntry store entry = .ok store') (key : String) :
    store.versions key <+: store'.versions key := by
  cases entry with
  | write content =>
      rw [KVStore.write_versions h]
      split
      · rename_i heq
        rw [heq]
        exact List.prefix_append _ _
      · exact List.prefix_rfl
  | read content =>
      cases h
      have hread := KVStore.lookup_versions store (StringValue.value content.key)
        (UInt64Value.value content.timestamp) key
      simp only [hread, List.prefix_rfl]
  | _ =>
      cases h
      exact List.prefix_rfl

/-- Versions stay while more entries are replayed. -/
theorem replay_versions {entries rest : List PaxosLogEntry} {store store' : KVStore}
    (h : replay entries = .ok store) (h' : replay (entries ++ rest) = .ok store')
    (key : String) : store.versions key <+: store'.versions key := by
  induction rest using List.reverseRecOn generalizing store' with
  | nil =>
      rw [List.append_nil, h] at h'
      cases h'
      exact List.prefix_rfl
  | append_singleton rest entry ih =>
      rw [← List.append_assoc] at h'
      obtain ⟨store₁, h₁⟩ := replay_prefix h'
      rw [replay_concat h₁] at h'
      exact (ih h₁).trans (replayEntry_versions h' key)

theorem take_eq_append (entries : List PaxosLogEntry) {j k : ℕ} (h : j ≤ k) :
    entries.take k = entries.take j ++ (entries.take k).drop j := by
  have htake : (entries.take k).take j = entries.take j := by
    rw [List.take_take, min_eq_left h]
  rw [← htake, List.take_append_drop]

/-- A write below `k` has left its version. -/
theorem version_of_write {entries : List PaxosLogEntry} {k : ℕ} {store : KVStore}
    (h : replay (entries.take k) = .ok store) {j : ℕ} (hj : j < k) {content : Write}
    (hwrite : entries[j]? = some (.write content)) :
    ⟨UInt64Value.value content.timestamp, StringValue.value content.value⟩ ∈
      store.versions (StringValue.value content.key) := by
  rw [take_eq_append entries (Nat.succ_le_of_lt hj)] at h
  obtain ⟨store₁, h₁⟩ := replay_prefix h
  have hstart := replay_versions h₁ h (StringValue.value content.key)
  apply hstart.subset
  rw [take_succ_of_getElem? hwrite] at h₁
  obtain ⟨store₀, h₀⟩ := replay_prefix h₁
  rw [replay_concat h₀] at h₁
  rw [KVStore.write_versions h₁, if_pos rfl]
  simp

/-- A version has been left by a write. -/
theorem write_of_version {entries : List PaxosLogEntry} {store : KVStore}
    (h : replay entries = .ok store) {key : String} {v : VersionEntry}
    (hv : v ∈ store.versions key) :
    ∃ content, .write content ∈ entries ∧ StringValue.value content.key = key ∧
      UInt64Value.value content.timestamp = v.timestamp := by
  induction entries using List.reverseRecOn generalizing store with
  | nil =>
      cases h
      cases hv
  | append_singleton entries entry ih =>
      obtain ⟨store₀, h₀⟩ := replay_prefix h
      rw [replay_concat h₀] at h
      have hold : v ∈ store₀.versions key → ∃ content, .write content ∈ entries ++ [entry] ∧
          StringValue.value content.key = key ∧
          UInt64Value.value content.timestamp = v.timestamp := by
        intro hv₀
        obtain ⟨content, hmem, heq⟩ := ih h₀ hv₀
        exact ⟨content, List.mem_append_left _ hmem, heq⟩
      cases entry with
      | write content =>
          rw [KVStore.write_versions h] at hv
          split at hv
          · rename_i hkey
            rcases List.mem_append.mp hv with hv | hv
            · rw [← hkey] at hv
              exact hold hv
            · rw [List.mem_singleton.mp hv]
              exact ⟨content, by simp, hkey.symm, rfl⟩
          · exact hold hv
      | read content =>
          cases h
          rw [KVStore.lookup_versions] at hv
          exact hold hv
      | _ =>
          cases h
          exact hold hv

/-- Entries keep the versions at or below a sealed timestamp. -/
theorem replay_sealed {entries rest : List PaxosLogEntry} {store store' : KVStore}
    {key : String} {timestamp : ℕ} (h : replay entries = .ok store)
    (h' : replay (entries ++ rest) = .ok store') (hsealed : store.Sealed key timestamp) :
    store'.Sealed key timestamp ∧
      KVStore.upTo (store'.versions key) timestamp =
        KVStore.upTo (store.versions key) timestamp := by
  induction rest using List.reverseRecOn generalizing store' with
  | nil =>
      rw [List.append_nil, h] at h'
      cases h'
      exact ⟨hsealed, rfl⟩
  | append_singleton rest entry ih =>
      rw [← List.append_assoc] at h'
      obtain ⟨store₁, h₁⟩ := replay_prefix h'
      rw [replay_concat h₁] at h'
      obtain ⟨hsealed₁, hupTo₁⟩ := ih h₁
      cases entry with
      | write content =>
          obtain ⟨hsealed', hupTo'⟩ := hsealed₁.write h'
          exact ⟨hsealed', hupTo'.trans hupTo₁⟩
      | read content =>
          cases h'
          refine ⟨hsealed₁.lookup _ _, ?_⟩
          rw [KVStore.lookup_versions]
          exact hupTo₁
      | _ =>
          cases h'
          exact ⟨hsealed₁, hupTo₁⟩

/-! ## Coupled stores -/

/-- A relation between the replayed store and the store of a participant that entries
preserve. -/
structure Coupling (R : KVStore → KVStore → Prop) : Prop where
  empty : R .empty .empty
  ahead : ∀ {store store'}, R store store' → KVStore.Ahead store store'
  read : ∀ {store store'} (key timestamp), R store store' →
    R (store.lookup key timestamp).2 (store'.lookup key timestamp).2
  write : ∀ {store store' store₁ store₁' key value timestamp}, R store store' →
    store.write key value timestamp = .ok store₁ →
    store'.write key value timestamp = .ok store₁' → R store₁ store₁'

theorem coupling_ahead : Coupling KVStore.Ahead where
  empty := .refl _
  ahead h := h
  read key timestamp h := h.lookup key timestamp
  write h hwrite hwrite' := h.write hwrite hwrite'

theorem coupling_eq : Coupling Eq where
  empty := rfl
  ahead h := h ▸ .refl _
  read key timestamp h := h ▸ rfl
  write h hwrite hwrite' := by
    subst h
    rw [hwrite] at hwrite'
    exact Except.ok.inj hwrite'

theorem Coupling.replayEntry {R : KVStore → KVStore → Prop} (hR : Coupling R)
    {store store' store₁ store₁' : KVStore} {entry : PaxosLogEntry} (h : R store store')
    (hreplay : replayEntry store entry = .ok store₁)
    (hreplay' : Tablet.replayEntry store' entry = .ok store₁') : R store₁ store₁' := by
  cases entry with
  | read content =>
      cases hreplay
      cases hreplay'
      exact hR.read _ _ h
  | write content => exact hR.write h hreplay hreplay'
  | _ =>
      cases hreplay
      cases hreplay'
      exact h

theorem readLogged_value {store store' : KVStore} (h : store.Ahead store') (content : Read) :
    (readLogged store' content).1 = (readLogged store content).1 := by
  rw [readLogged, readLogged, KVStore.lookup_value, KVStore.lookup_value, h.versions]

theorem entryValue_of_ahead {store store' : KVStore} (h : store.Ahead store')
    (entry : PaxosLogEntry) : entryValue store' entry = entryValue store entry := by
  cases entry with
  | read content => exact readLogged_value h content
  | _ => rfl

/-! ## Callbacks -/

/-- The callbacks of a participant. -/
def registrations : List (EntryContentCase × Callback) :=
  [(.kRead, .read), (.kWrite, .write)]

theorem new_paxosLog : (ClientRequestHandler.new : TabletParticipant ε).paxosLog =
    PaxosLog.register registrations := rfl

theorem callbacks_eq (c : EntryContentCase) :
    (PaxosLog.register registrations).callbacks c =
      match c with
      | .kRead => [.read]
      | .kWrite => [.write]
      | _ => [] := by
  cases c <;> rfl

/-- What the callback of an entry leaves of a participant. -/
structure Absorbed (p : TabletParticipant ε) (index : ℕ) (entry : PaxosLogEntry)
    (p' : TabletParticipant ε) : Prop where
  paxosLog : p'.paxosLog = p.paxosLog
  asyncQueue : p'.asyncQueue = p.asyncQueue
  requestIdMap : p'.requestIdMap =
    (requestId entry).elim p.requestIdMap fun id => p.requestIdMap.insert id index
  outcome : (∃ kvstore, replayEntry p.kvstore entry = .ok kvstore ∧ p'.kvstore = kvstore ∧
      p'.exception = none) ∨
    (∃ exception, replayEntry p.kvstore entry = .error exception ∧
      p'.kvstore = p.kvstore ∧ p'.exception = some exception) ∨
    (p'.kvstore = p.kvstore ∧ p'.exception = some undefinedRead)

/-- A callback of a read does what the read is there for, or has no defined result. -/
theorem absorbed_read {p : TabletParticipant ε} (hlive : p.exception = none) (index : ℕ)
    (content : Read) :
    Absorbed p index (.read content) (callback p ⟨.read, index, .read content⟩) ∧
      ((callback p ⟨.read, index, .read content⟩).exception = none →
        callbackValue p ⟨.read, index, .read content⟩ = (readLogged p.kvstore content).1) := by
  cases hread : p.kvstore.read (StringValue.value content.key)
      (UInt64Value.value content.timestamp) with
  | ok result =>
      obtain ⟨-, rfl⟩ := KVStore.read_ok_iff.mp hread
      have hcallback : callback p ⟨.read, index, .read content⟩ =
          { p with
            requestIdMap :=
              p.requestIdMap.insert (StringValue.value content.requestId) index
            kvstore := (readLogged p.kvstore content).2 } := by
        simp only [callback, PaxosLogEntry.getRead, hread, readLogged]
      rw [hcallback]
      refine ⟨⟨rfl, rfl, rfl, .inl ⟨_, rfl, rfl, hlive⟩⟩, ?_⟩
      intro _
      simp only [callbackValue, PaxosLogEntry.getRead, hread, readLogged]
  | error fault =>
      have hcallback : callback p ⟨.read, index, .read content⟩ =
          { p with
            requestIdMap :=
              p.requestIdMap.insert (StringValue.value content.requestId) index
            exception := some undefinedRead } := by
        simp only [callback, PaxosLogEntry.getRead, hread]
      rw [hcallback]
      refine ⟨⟨rfl, rfl, rfl, .inr (.inr ⟨rfl, rfl⟩)⟩, ?_⟩
      intro hnone
      cases hnone

theorem absorbed_write {p : TabletParticipant ε} (hlive : p.exception = none) (index : ℕ)
    (content : Write) :
    Absorbed p index (.write content) (callback p ⟨.write, index, .write content⟩) := by
  cases hwrite : replayEntry p.kvstore (.write content) with
  | ok kvstore =>
      have hcallback : callback p ⟨.write, index, .write content⟩ =
          { p with
            requestIdMap :=
              p.requestIdMap.insert (StringValue.value content.requestId) index
            kvstore := kvstore } := by
        simp only [replayEntry] at hwrite
        simp only [callback, PaxosLogEntry.getWrite, hwrite]
      rw [hcallback]
      exact ⟨rfl, rfl, rfl, .inl ⟨kvstore, hwrite, rfl, hlive⟩⟩
  | error exception =>
      have hcallback : callback p ⟨.write, index, .write content⟩ =
          { p with
            requestIdMap :=
              p.requestIdMap.insert (StringValue.value content.requestId) index
            exception := some exception } := by
        simp only [replayEntry] at hwrite
        simp only [callback, PaxosLogEntry.getWrite, hwrite]
      rw [hcallback]
      exact ⟨rfl, rfl, rfl, .inr (.inl ⟨exception, hwrite, rfl, rfl⟩)⟩

theorem applyCalls_singleton (i : ι) (p : TabletParticipant ε) (call : Call Callback) :
    applyCalls i p [call] =
      (if (callback p call).exception.isSome then []
        else [.applied i call.index (callbackValue p call)],
        callback p call) := by
  simp only [applyCalls]
  split <;> rfl

theorem applyCalls_append (i : ι) (p : TabletParticipant ε)
    (calls calls' : List (Call Callback)) (hlive : p.exception = none) :
    applyCalls i p (calls ++ calls') =
      let (events, p') := applyCalls i p calls
      if p'.exception.isSome then (events, p')
      else
        let (events', p'') := applyCalls i p' calls'
        (events ++ events', p'') := by
  induction calls generalizing p with
  | nil => simp [applyCalls, hlive]
  | cons call calls ih =>
      simp only [List.cons_append, applyCalls]
      split
      · simp
      · rename_i hrunning
        rw [ih _ (by simpa using hrunning)]
        dsimp only
        split <;> simp

/-- The calls for one index absorb its entry. An event is shown only if the participant
does not stop. -/
theorem applyCalls_callsAt {l : PaxosLog Callback} (i : ι) {index : ℕ}
    {entry : PaxosLogEntry} {p : TabletParticipant ε}
    (hcallbacks : l.callbacks = (PaxosLog.register registrations).callbacks)
    (hentry : l.log index = some entry) (hlive : p.exception = none) :
    ∃ events p', applyCalls i p (l.callsAt index) = (events, p') ∧
      Absorbed p index entry p' ∧
      (events = [] ∨
        events = [.applied i index (entryValue p.kvstore entry)] ∧ p'.exception = none) := by
  have hcalls : l.callsAt index =
      ((PaxosLog.register registrations).callbacks entry.entryContentCase).map
        fun callback => ⟨callback, index, entry⟩ := by
    rw [PaxosLog.callsAt, hentry, hcallbacks]
    rfl
  rw [hcalls, callbacks_eq]
  cases entry with
  | read content =>
      obtain ⟨habsorbed, hvalue⟩ := absorbed_read hlive index content
      refine ⟨_, _, applyCalls_singleton i p _, habsorbed, ?_⟩
      split
      · exact .inl rfl
      · rename_i hrunning
        have hnone : (callback p ⟨.read, index, .read content⟩).exception = none := by
          simpa using hrunning
        refine .inr ⟨?_, hnone⟩
        rw [entryValue, ← hvalue hnone]
  | write content =>
      refine ⟨_, _, applyCalls_singleton i p _, absorbed_write hlive index content, ?_⟩
      split
      · exact .inl rfl
      · rename_i hrunning
        exact .inr ⟨rfl, by simpa using hrunning⟩
  | _ => exact ⟨[], p, rfl, ⟨rfl, rfl, rfl, .inl ⟨_, rfl, rfl, hlive⟩⟩, .inl rfl⟩

end UniversalDB.Tablet
