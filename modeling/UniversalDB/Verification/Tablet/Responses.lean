import UniversalDB.Verification.Tablet.Log

/-! # What the clients of a tablet are told

Responses that come through the id map speak about the entry of the request in the agreed
log. -/

namespace UniversalDB.Tablet

variable {ι ε : Type}

/-! ## Requests -/

def requests (trace : List (Event ι ε)) : List ClientRequest :=
  trace.filterMap fun
    | .requested _ _ message => some message
    | _ => none

/-- Distinct requests carry distinct ids. A client may send a request again. -/
def DistinctIds (trace : List (Event ι ε)) : Prop :=
  ∀ m ∈ requests trace, ∀ m' ∈ requests trace, m.requestId = m'.requestId → m = m'

instance (trace : List (Event ι ε)) : Decidable (DistinctIds trace) :=
  inferInstanceAs (Decidable (∀ m ∈ requests trace, ∀ m' ∈ requests trace, _ → _))

theorem mem_requests {trace : List (Event ι ε)} {i : ι} {endpointId : ε}
    {message : ClientRequest} (h : .requested i endpointId message ∈ trace) :
    message ∈ requests trace :=
  List.mem_filterMap.mpr ⟨_, h, rfl⟩

/-- With distinct ids the id of an entry leads to its request. -/
theorem Requested.logEntry_eq {trace : List (Event ι ε)} (hids : DistinctIds trace)
    {message : ClientRequest} (hmem : message ∈ requests trace) {entry : PaxosLogEntry}
    (h : Requested trace entry) (hid : requestId entry = some message.requestId) :
    ClientRequestHandler.logEntry message = .ok entry := by
  obtain ⟨i, endpointId, message', hrequested, hentry⟩ := h
  rw [requestId_logEntry hentry] at hid
  rw [hids message hmem message' (mem_requests hrequested) (Option.some.inj hid).symm]
  exact hentry

/-! ## Writes -/

variable {trace : List (Event ι ε)} {s : State ι ε}

/-- Up to the next version a participant that has applied a write returns its value, as long
as the read is defined. -/
theorem Inv.readValue_applied (h : Inv KVStore.Ahead trace s) {j : ℕ} {content : Write}
    (hwrite : s.agreedLog.entries[j]? = some (.write content)) {i : ι} {value : Option String}
    (happlied : .applied i j value ∈ trace) {t : ℕ}
    (hle : UInt64Value.value content.timestamp ≤ t)
    (hnext : ∀ v ∈ (s.participants i).kvstore.versions (StringValue.value content.key),
      UInt64Value.value content.timestamp < v.timestamp → t < v.timestamp) :
    (s.participants i).kvstore.readValue (StringValue.value content.key) t =
        .ok (some (StringValue.value content.value)) ↔
      (s.participants i).kvstore.Searchable (StringValue.value content.key) t := by
  obtain ⟨k, hk⟩ := (h.participants i).progress
  obtain ⟨hlt, -⟩ := hk.applied j value happlied
  obtain ⟨store, hreplay, hahead⟩ := hk.store
  have hversion := version_of_write hreplay hlt hwrite
  rw [← hahead.versions] at hversion
  have hvalue : KVStore.valueAt
      ((s.participants i).kvstore.versions (StringValue.value content.key)) t =
        some (StringValue.value content.value) := by
    rw [KVStore.valueAt, Timeline.latest_eq_some (KVStore.versions_ascending _ _) hversion hle
      hnext]
    rfl
  rw [KVStore.readValue_ok_iff]
  exact and_iff_left hvalue

variable [DecidableEq ι]

/-- A write that is answered with success is in the agreed log, and a participant that has
applied it returns its value up to the next version if and only if it has fewer than
`2 ^ 31` versions of the key up to there. -/
theorem written_visible_iff (h : (machine ι ε).system.Run trace s) (hids : DistinctIds trace)
    {i : ι} {endpointId : ε} {message : ClientRequest} {entryIndex : Option ℕ}
    {response : ClientResponse}
    (hresponded : .responded i endpointId message entryIndex response ∈ trace)
    (htype : message.requestType = .WRITE) (hsuccess : response.errorCode = .SUCCESS) :
    ∃ j, s.agreedLog.entries[j]? = some (.write
        { requestId := some message.requestId
          key := some message.key
          value := some (StringValue.value message.value)
          timestamp := some (UInt64Value.value message.timestamp) }) ∧
      ∀ i' value, .applied i' j value ∈ trace →
        ∀ t, UInt64Value.value message.timestamp ≤ t →
          (∀ v ∈ (s.participants i').kvstore.versions message.key,
            UInt64Value.value message.timestamp < v.timestamp → t < v.timestamp) →
          ((s.participants i').kvstore.readValue message.key t =
              .ok (some (StringValue.value message.value)) ↔
            (s.participants i').kvstore.Searchable message.key t) := by
  have hinv := ahead_of_run h
  obtain ⟨⟨i₀, endpointId₀, hrequested⟩, hanswered⟩ := hinv.responded _ _ _ _ _ hresponded
  cases entryIndex with
  | none =>
      rw [hanswered] at hsuccess
      cases hsuccess
  | some j =>
      obtain ⟨entry, hentry, hid, -⟩ := hanswered
      have hlog := (hinv.entries j entry hentry).logEntry_eq hids (mem_requests hrequested) hid
      simp only [ClientRequestHandler.logEntry, htype, Except.ok.injEq] at hlog
      subst hlog
      refine ⟨j, hentry, ?_⟩
      intro i' value happlied t hle hnext
      exact hinv.readValue_applied hentry happlied hle hnext

/-- Participant 1 reads at 7 what has been written through participant 0 at 5. -/
theorem written_visible_sample :
    ∃ (trace : List (Event (Fin 2) Unit)) (s : State (Fin 2) Unit),
      (machine (Fin 2) Unit).system.Run trace s ∧
        .responded 0 () sampleWrite (some 0) ⟨none, .SUCCESS⟩ ∈ trace ∧
        .applied 1 0 none ∈ trace ∧
        (s.participants 1).kvstore.readValue "k" 7 = .ok (some "v") := by
  obtain ⟨trace, s, hrun, hids, hresponded, hlog, happlied, hversions⟩ :=
    (machine (Fin 2) Unit).exists_run (sampleRun 0 1)
      (p := fun r => DistinctIds r.1 ∧
        .responded 0 () sampleWrite (some 0) ⟨none, .SUCCESS⟩ ∈ r.1 ∧
        r.2.agreedLog.entries = [.write ⟨some "w", some "k", some "v", some 5⟩,
          .read ⟨some "r", some "k", some 10⟩] ∧
        .applied 1 0 none ∈ r.1 ∧ (r.2.participants 1).kvstore.versions "k" = [⟨5, "v"⟩])
      (by decide +kernel)
  obtain ⟨j, hentry, hvisible⟩ := written_visible_iff hrun hids hresponded rfl rfl
  obtain rfl : j = 0 := by
    rw [hlog] at hentry
    match j with
    | 0 => rfl
    | 1 => cases hentry
  refine ⟨trace, s, hrun, hresponded, happlied, ?_⟩
  refine (hvisible 1 none happlied 7 (by decide) ?_).mpr ?_
  · intro v hv
    rw [show sampleWrite.key = "k" from rfl, hversions, List.mem_singleton] at hv
    rw [hv]
    exact fun hlt => absurd hlt (by decide)
  · rw [show sampleWrite.key = "k" from rfl, KVStore.Searchable, hversions]
    decide

/-! ## Reads -/

/-- The key has been written before index `j`, or no write of it in the log is at or before
the timestamp. -/
def Settled (G : List PaxosLogEntry) (j : ℕ) (key : String) (timestamp : ℕ) : Prop :=
  (∃ j' < j, ∃ content : Write, G[j']? = some (.write content) ∧
      StringValue.value content.key = key) ∨
    ∀ (j' : ℕ) (content : Write), G[j']? = some (.write content) →
      StringValue.value content.key = key → timestamp < UInt64Value.value content.timestamp

/-- A settled read returns the same value at its index and behind it. -/
theorem Settled.readLogged {G : List PaxosLogEntry} {j : ℕ} {content : Read}
    (h : Settled G j (StringValue.value content.key) (UInt64Value.value content.timestamp))
    (hentry : G[j]? = some (.read content)) {k : ℕ} (hjk : j < k) {store store' : KVStore}
    (hreplay : replay (G.take j) = .ok store) (hreplay' : replay (G.take k) = .ok store') :
    (readLogged store' content).1 = (readLogged store content).1 := by
  rw [Tablet.readLogged, Tablet.readLogged, KVStore.lookup_value, KVStore.lookup_value]
  rcases h with ⟨j', hj', write, hwrite, hkey⟩ | hlate
  · have hversions := List.ne_nil_of_mem (version_of_write hreplay hj' hwrite)
    rw [hkey] at hversions
    have hsealed := KVStore.lookup_sealed hversions (UInt64Value.value content.timestamp)
    have hread : replay (G.take (j + 1)) = .ok (Tablet.readLogged store content).2 := by
      rw [take_succ_of_getElem? hentry, replay_concat hreplay]
      rfl
    rw [take_eq_append G (Nat.succ_le_of_lt hjk)] at hreplay'
    obtain ⟨-, hupTo⟩ := replay_sealed hread hreplay' hsealed
    rw [KVStore.valueAt_eq, hupTo, Tablet.readLogged, KVStore.lookup_versions]
    rfl
  · have hnone : ∀ {n store}, replay (G.take n) = .ok store →
        KVStore.valueAt (store.versions (StringValue.value content.key))
          (UInt64Value.value content.timestamp) = none := by
      intro n store hn
      rw [KVStore.valueAt_eq_none]
      intro v hv
      obtain ⟨write, hmem, hkey, htimestamp⟩ := write_of_version hn hv
      obtain ⟨j', hj'⟩ := List.mem_iff_getElem?.mp (List.mem_of_mem_take hmem)
      rw [← htimestamp]
      exact hlate j' write hj' hkey
    rw [hnone hreplay, hnone hreplay']

/-- The responses to a settled read that come through the id map, and the values the store
returns when participants apply its entry, are all the value at the index of the entry. -/
theorem read_answered_alike (h : (machine ι ε).system.Run trace s) (hids : DistinctIds trace)
    {message : ClientRequest} (hmem : message ∈ requests trace)
    (htype : message.requestType = .READ) {j : ℕ} {entry : PaxosLogEntry}
    (hentry : s.agreedLog.entries[j]? = some entry)
    (hid : requestId entry = some message.requestId)
    (hsettled : Settled s.agreedLog.entries j message.key
      (UInt64Value.value message.timestamp)) :
    ∃ store, replay (s.agreedLog.entries.take j) = .ok store ∧
      let value := (store.lookup message.key (UInt64Value.value message.timestamp)).1
      (∀ i value', .applied i j value' ∈ trace → value' = value) ∧
        ∀ i endpointId entryIndex response,
          .responded i endpointId message (some entryIndex) response ∈ trace →
            entryIndex = j ∧ response = readResponse value := by
  have hinv := ahead_of_run h
  obtain ⟨store, hreplay⟩ := legal_of_pinned hinv.pinned j
  have hlog := (hinv.entries j entry hentry).logEntry_eq hids hmem hid
  simp only [ClientRequestHandler.logEntry, htype, Except.ok.injEq] at hlog
  subst hlog
  refine ⟨store, hreplay, ?_, ?_⟩
  · intro i value' happlied
    obtain ⟨k, hk⟩ := (hinv.participants i).progress
    obtain ⟨-, entry', store', hentry', hreplay', rfl⟩ := hk.applied j value' happlied
    rw [hentry] at hentry'
    cases hentry'
    rw [hreplay] at hreplay'
    cases hreplay'
    rfl
  · intro i endpointId entryIndex response hresponded
    obtain ⟨-, entry', hentry', hid', hresponse⟩ := hinv.responded _ _ _ _ _ hresponded
    have hindex : j = entryIndex :=
      SameRequest.eq hinv.pinned ⟨_, entry', _, hentry, hentry', hid, hid'⟩
    subst hindex
    rw [hentry] at hentry'
    cases hentry'
    refine ⟨rfl, ?_⟩
    rcases hresponse with ⟨hwrite, -⟩ | ⟨-, k, store', hjk, -, hreplay', rfl⟩
    · rw [htype] at hwrite
      cases hwrite
    · have hvalue := hsettled.readLogged hentry hjk hreplay hreplay'
      exact congrArg readResponse hvalue

theorem read_answered_alike_sample :
    ∃ (trace : List (Event (Fin 2) Unit)) (s : State (Fin 2) Unit),
      (machine (Fin 2) Unit).system.Run trace s ∧
        .responded 1 () sampleRead (some 1) ⟨some "v", .SUCCESS⟩ ∈ trace ∧
        ∃ value, (∀ i value', .applied i 1 value' ∈ trace → value' = value) ∧
          ∀ i endpointId entryIndex response,
            .responded i endpointId sampleRead (some entryIndex) response ∈ trace →
              entryIndex = 1 ∧ response = readResponse value := by
  obtain ⟨trace, s, hrun, hids, hmem, hwrite, hread, hresponded⟩ :=
    (machine (Fin 2) Unit).exists_run (sampleRun 0 1)
      (p := fun r => DistinctIds r.1 ∧ sampleRead ∈ requests r.1 ∧
        r.2.agreedLog.entries[0]? = some (.write ⟨some "w", some "k", some "v", some 5⟩) ∧
        r.2.agreedLog.entries[1]? = some (.read ⟨some "r", some "k", some 10⟩) ∧
        .responded 1 () sampleRead (some 1) ⟨some "v", .SUCCESS⟩ ∈ r.1) (by decide +kernel)
  obtain ⟨store, -, halike⟩ := read_answered_alike hrun hids hmem rfl hread rfl
    (.inl ⟨0, by decide, _, hwrite, rfl⟩)
  exact ⟨trace, s, hrun, hresponded, _, halike⟩

/-- A read of a key that does not exist yet leaves no trace: the key is written at an earlier
timestamp later, and the client that sends the read again gets another answer. -/
def answeredTwice (p : ι) : List (Action ι Unit) :=
  [.request p () sampleRead, .run p, .choose 0, .learn p 0, .run p,
    .request p () sampleWrite, .run p, .choose 1, .learn p 1, .run p,
    .request p () sampleRead, .run p]

theorem read_answered_differently :
    ∃ (trace : List (Event (Fin 2) Unit)) (s : State (Fin 2) Unit),
      (machine (Fin 2) Unit).system.Run trace s ∧ DistinctIds trace ∧
        s.agreedLog.entries[0]? = some (.read ⟨some "r", some "k", some 10⟩) ∧
        .applied 0 0 none ∈ trace ∧
        .responded 0 () sampleRead (some 0) ⟨none, .ERROR⟩ ∈ trace ∧
        .responded 0 () sampleRead (some 0) ⟨some "v", .SUCCESS⟩ ∈ trace :=
  (machine (Fin 2) Unit).exists_run (answeredTwice 0)
    (p := fun r => DistinctIds r.1 ∧
      r.2.agreedLog.entries[0]? = some (.read ⟨some "r", some "k", some 10⟩) ∧
      .applied 0 0 none ∈ r.1 ∧
      .responded 0 () sampleRead (some 0) ⟨none, .ERROR⟩ ∈ r.1 ∧
      .responded 0 () sampleRead (some 0) ⟨some "v", .SUCCESS⟩ ∈ r.1) (by decide +kernel)

end UniversalDB.Tablet
