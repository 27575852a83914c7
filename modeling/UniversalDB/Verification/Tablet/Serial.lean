import UniversalDB.Verification.Tablet.Responses

/-! # The reads of a tablet in the order of the timestamps

The versions and the last access timestamps are there for one purpose: the requests of a
tablet are answered as by a plain map that the writes of the log are put into in the order
of their timestamps, wherever they stand in the log and whichever participant answers. -/

namespace UniversalDB.Tablet

variable {ι ε : Type}

/-! ## The plain map -/

/-- The key of a write and the version that it leaves. -/
def writeOf : PaxosLogEntry → Option (String × VersionEntry)
  | .write content => some (StringValue.value content.key,
      ⟨UInt64Value.value content.timestamp, StringValue.value content.value⟩)
  | _ => none

def writes (G : List PaxosLogEntry) : List (String × VersionEntry) := G.filterMap writeOf

/-- The map that has been written by the writes of a log with timestamps up to `timestamp`,
one after the other in the order of their timestamps. -/
def plainAt (G : List PaxosLogEntry) (timestamp : ℕ) : String → Option String :=
  (((writes G).mergeSort fun w w' => w.2.timestamp ≤ w'.2.timestamp).filter
    fun w => w.2.timestamp ≤ timestamp).foldl
      (fun m w => Function.update m w.1 (some w.2.value)) fun _ => none

theorem writes_append (G rest : List PaxosLogEntry) :
    writes (G ++ rest) = writes G ++ writes rest := List.filterMap_append

/-- The versions of a key are its writes, in the order of the log. -/
theorem versions_eq_writes {G : List PaxosLogEntry} {store : KVStore}
    (h : replay G = .ok store) (key : String) :
    store.versions key = ((writes G).filter fun w => w.1 = key).map Prod.snd := by
  induction G using List.reverseRecOn generalizing store with
  | nil =>
      cases h
      rfl
  | append_singleton G entry ih =>
      obtain ⟨store₀, h₀⟩ := replay_prefix h
      rw [replay_concat h₀] at h
      rw [writes_append, List.filter_append, List.map_append, ← ih h₀]
      cases entry with
      | write content =>
          rw [KVStore.write_versions h]
          by_cases hkey : key = StringValue.value content.key
          · subst hkey
            simp [writes, writeOf]
          · simp [writes, writeOf, hkey, Ne.symm hkey]
      | read content =>
          cases h
          rw [KVStore.lookup_versions]
          simp [writes, writeOf]
      | _ =>
          cases h
          simp [writes, writeOf]

theorem writes_ascending {G : List PaxosLogEntry} {store : KVStore} (h : replay G = .ok store)
    (key : String) : ((writes G).filter fun w => w.1 = key).Pairwise
      fun w w' => w.2.timestamp < w'.2.timestamp := by
  have hversions := KVStore.versions_ascending store key
  rw [versions_eq_writes h, List.pairwise_map] at hversions
  exact hversions

/-- A store that has replayed the log returns what stands in the plain map. -/
theorem plainAt_eq_valueAt {G : List PaxosLogEntry} {store : KVStore} (h : replay G = .ok store)
    (timestamp : ℕ) (key : String) :
    plainAt G timestamp key = KVStore.valueAt (store.versions key) timestamp := by
  rw [plainAt, Timeline.foldl_update_apply, List.filter_filter]
  have hswap : ∀ xs : List (String × VersionEntry),
      (xs.filter fun w => decide (w.1 = key) && decide (w.2.timestamp ≤ timestamp)) =
        (xs.filter fun w => w.1 = key).filter fun w => w.2.timestamp ≤ timestamp := by
    intro xs
    rw [List.filter_filter]
    exact List.filter_congr fun w _ => Bool.and_comm _ _
  rw [hswap, Timeline.filter_mergeSort (writes_ascending h key), KVStore.valueAt,
    Timeline.latest, versions_eq_writes h, List.filter_map, List.getLast?_map, Option.map_map]
  rfl

/-- A read of the plain map finds a write at least as late as any other one up to its
timestamp. -/
theorem plainAt_of_write {G : List PaxosLogEntry} {store : KVStore} (h : replay G = .ok store)
    {w : String × VersionEntry} (hw : w ∈ writes G) {timestamp : ℕ}
    (hle : w.2.timestamp ≤ timestamp) :
    ∃ w' ∈ writes G, w'.1 = w.1 ∧ w.2.timestamp ≤ w'.2.timestamp ∧
      w'.2.timestamp ≤ timestamp ∧ plainAt G timestamp w.1 = some w'.2.value := by
  have hversion : w.2 ∈ store.versions w.1 := by
    rw [versions_eq_writes h]
    exact List.mem_map.mpr ⟨w, List.mem_filter.mpr ⟨hw, by simp⟩, rfl⟩
  obtain ⟨v, hv, hlatest, hge, hup⟩ :=
    Timeline.exists_latest (KVStore.versions_ascending store w.1) hversion hle
  rw [plainAt_eq_valueAt h, KVStore.valueAt, hlatest]
  rw [versions_eq_writes h] at hv
  obtain ⟨w', hw', rfl⟩ := List.mem_map.mp hv
  obtain ⟨hmem, hkey⟩ := List.mem_filter.mp hw'
  exact ⟨w', hmem, of_decide_eq_true hkey, hge, hup, rfl⟩

/-! ## Responses -/

/-- The version that a write request asks for. -/
def requestedVersion (message : ClientRequest) : VersionEntry :=
  ⟨UInt64Value.value message.timestamp, StringValue.value message.value⟩

variable {trace : List (Event ι ε)} {s : State ι ε}

theorem Inv.mem_writes (h : Inv KVStore.Ahead trace s) (hids : DistinctIds trace) {i : ι}
    {endpointId : ε} {message : ClientRequest} {entryIndex : Option ℕ}
    {response : ClientResponse}
    (hresponded : .responded i endpointId message entryIndex response ∈ trace)
    (htype : message.requestType = .WRITE) (hsuccess : response.errorCode = .SUCCESS) :
    (message.key, requestedVersion message) ∈ writes s.agreedLog.entries := by
  obtain ⟨⟨i₀, endpointId₀, hrequested⟩, hanswered⟩ := h.responded _ _ _ _ _ hresponded
  cases entryIndex with
  | none =>
      rw [hanswered] at hsuccess
      cases hsuccess
  | some j =>
      obtain ⟨entry, hentry, hid, -⟩ := hanswered
      have hlog := (h.entries j entry hentry).logEntry_eq hids (mem_requests hrequested) hid
      simp only [ClientRequestHandler.logEntry, htype, Except.ok.injEq] at hlog
      subst hlog
      exact List.mem_filterMap.mpr ⟨_, List.mem_of_getElem? hentry, rfl⟩

/-- A settled read is answered by what the plain map has for its key, in this state of the
log and in every later one. -/
theorem Inv.response_eq_plainAt (h : Inv KVStore.Ahead trace s) (hids : DistinctIds trace)
    {i : ι} {endpointId : ε} {message : ClientRequest} {j : ℕ} {response : ClientResponse}
    (hresponded : .responded i endpointId message (some j) response ∈ trace)
    (htype : message.requestType = .READ)
    (hsettled : Settled s.agreedLog.entries j message.key
      (UInt64Value.value message.timestamp)) :
    response = readResponse
      (plainAt s.agreedLog.entries (UInt64Value.value message.timestamp) message.key) := by
  obtain ⟨⟨i₀, endpointId₀, hrequested⟩, entry, hentry, hid, hresponse⟩ :=
    h.responded _ _ _ _ _ hresponded
  have hlog := (h.entries j entry hentry).logEntry_eq hids (mem_requests hrequested) hid
  simp only [ClientRequestHandler.logEntry, htype, Except.ok.injEq] at hlog
  subst hlog
  rcases hresponse with ⟨hwrite, -⟩ | ⟨-, k, store', hjk, -, hreplay', rfl⟩
  · rw [htype] at hwrite
    cases hwrite
  · obtain ⟨store, hreplay⟩ := legal_of_pinned h.pinned j
    obtain ⟨last, hlast⟩ := legal_of_pinned h.pinned s.agreedLog.entries.length
    have hlt := (List.getElem?_eq_some_iff.mp hentry).1
    have hvalue := (hsettled.readLogged hentry hjk hreplay hreplay').trans
      (hsettled.readLogged hentry hlt hreplay hlast).symm
    rw [List.take_length] at hlast
    rw [plainAt_eq_valueAt hlast, ← KVStore.lookup_value]
    exact congrArg readResponse hvalue

variable [DecidableEq ι]

/-- The tablet answers as a plain map would that its writes reach in the order of their
timestamps. In particular a read sees every write up to its timestamp that has been
answered, whoever has answered it, or a later one. -/
theorem answered_in_timestamp_order (h : (machine ι ε).system.Run trace s)
    (hids : DistinctIds trace) {i : ι} {endpointId : ε} {message : ClientRequest} {j : ℕ}
    {response : ClientResponse}
    (hresponded : .responded i endpointId message (some j) response ∈ trace)
    (htype : message.requestType = .READ)
    (hsettled : Settled s.agreedLog.entries j message.key
      (UInt64Value.value message.timestamp)) :
    response = readResponse
        (plainAt s.agreedLog.entries (UInt64Value.value message.timestamp) message.key) ∧
      ∀ i' endpointId' written entryIndex' response',
        .responded i' endpointId' written entryIndex' response' ∈ trace →
        written.requestType = .WRITE → response'.errorCode = .SUCCESS →
        written.key = message.key →
        UInt64Value.value written.timestamp ≤ UInt64Value.value message.timestamp →
          ∃ w ∈ writes s.agreedLog.entries, w.1 = message.key ∧
            UInt64Value.value written.timestamp ≤ w.2.timestamp ∧
            w.2.timestamp ≤ UInt64Value.value message.timestamp ∧
            response = ⟨some w.2.value, .SUCCESS⟩ := by
  have hinv := ahead_of_run h
  have hresponse := hinv.response_eq_plainAt hids hresponded htype hsettled
  refine ⟨hresponse, ?_⟩
  intro i' endpointId' written entryIndex' response' hwritten hwrite hsuccess hkey hle
  obtain ⟨store, hreplay⟩ := legal_of_pinned hinv.pinned s.agreedLog.entries.length
  rw [List.take_length] at hreplay
  obtain ⟨w, hw, hwkey, hge, hup, hplain⟩ :=
    plainAt_of_write hreplay (hinv.mem_writes hids hwritten hwrite hsuccess) hle
  refine ⟨w, hw, hwkey.trans hkey, hge, hup, ?_⟩
  rw [hresponse, ← hkey, hplain]
  rfl

theorem answered_in_timestamp_order_sample :
    ∃ (trace : List (Event (Fin 2) Unit)) (s : State (Fin 2) Unit),
      (machine (Fin 2) Unit).system.Run trace s ∧
        (⟨some "v", .SUCCESS⟩ : ClientResponse) =
          readResponse (plainAt s.agreedLog.entries 10 "k") ∧
        ∃ w ∈ writes s.agreedLog.entries, w.1 = "k" ∧ 5 ≤ w.2.timestamp := by
  obtain ⟨trace, s, hrun, hids, hlog, hread, hwritten⟩ :=
    (machine (Fin 2) Unit).exists_run (sampleRun 0 1)
      (p := fun r => DistinctIds r.1 ∧
        r.2.agreedLog.entries[0]? = some (.write ⟨some "w", some "k", some "v", some 5⟩) ∧
        .responded 1 () sampleRead (some 1) ⟨some "v", .SUCCESS⟩ ∈ r.1 ∧
        .responded 0 () sampleWrite (some 0) ⟨none, .SUCCESS⟩ ∈ r.1) (by decide +kernel)
  obtain ⟨hresponse, hseen⟩ := answered_in_timestamp_order hrun hids hread rfl
    (.inl ⟨0, by decide, _, hlog, rfl⟩)
  obtain ⟨w, hw, hkey, hge, -, -⟩ := hseen _ _ _ _ _ hwritten rfl rfl rfl (by decide)
  exact ⟨trace, s, hrun, hresponse, w, hw, hkey, hge⟩

end UniversalDB.Tablet
