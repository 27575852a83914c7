import UniversalDB.Model.LogSyncerWords
import UniversalDB.Verification.LogSyncer.Holes
import UniversalDB.Verification.PaxosLog.Invariant

/-! # Responses to any request

The loops over indices end, on whatever bounds a request gives, as these are clipped at the
first gap of the log. -/

namespace UniversalDB.LogSyncer

variable {κ : Type}

namespace Words

variable (paxosLog : PaxosLog κ) {n : ℕ}

/-- A loop whose condition is a bound goes through the indices below the bound. -/
theorem entryLoop_eq {condition : UInt64 → Bool} (hn : n < 2 ^ 64)
    (hcondition : ∀ i, condition i = true ↔ i.toNat < n) (fuel : ℕ) :
    ∀ i : UInt64, n - i.toNat < fuel → entryLoop paxosLog condition fuel i =
      .ok ((List.range' i.toNat (n - i.toNat)).filterMap fun j =>
        (paxosLog.getEntry j).map fun entry => ⟨UInt32.ofNat j, entry⟩) := by
  induction fuel with
  | zero =>
      intro i hfuel
      omega
  | succ fuel ih =>
      intro i hfuel
      by_cases hi : i.toNat < n
      · have hadd : (i + 1).toNat = i.toNat + 1 := by
          rw [UInt64.toNat_add, UInt64.toNat_one]
          omega
        have hne : i + 1 ≠ 0 := by
          intro hzero
          rw [hzero, UInt64.toNat_zero] at hadd
          omega
        have hrest := ih (i + 1) (by omega)
        have hlen : n - i.toNat = n - (i + 1).toNat + 1 := by omega
        simp only [entryLoop, (hcondition i).mpr hi, if_true, if_neg hne, hrest]
        rw [hlen, List.range'_succ, hadd, List.filterMap_cons]
        cases paxosLog.getEntry i.toNat <;> rfl
      · have hcond : condition i = false := by
          rw [Bool.eq_false_iff, Ne, hcondition]
          exact hi
        have hlen : n - i.toNat = 0 := by omega
        simp [entryLoop, hcond, hlen, pure, Except.pure]

theorem toNat_min (a b : UInt64) : (Words.min a b).toNat = Min.min a.toNat b.toNat := by
  unfold Words.min
  split
  · rename_i hlt
    have := UInt64.lt_iff_toNat_lt.mp hlt
    omega
  · rename_i hge
    have := UInt64.le_iff_toNat_le.mp (UInt64.not_lt.mp hge)
    omega

/-- The numbers of a request have 64 bits. -/
structure Fits (request : SyncRequest) : Prop where
  subarrays : ∀ s ∈ request.missingIndices, s.start < 2 ^ 64 ∧ s.end < 2 ^ 64
  lastIndex : request.lastIndex < 2 ^ 64

/-- The loop up to a bound that is included. -/
theorem entryLoop_le (start : UInt64) {stop : UInt64} (hstop : stop.toNat + 1 < 2 ^ 64) {fuel : ℕ}
    (hfuel : stop.toNat + 2 ≤ fuel) :
    entryLoop paxosLog (fun i => i ≤ stop) fuel start =
      .ok (entriesBetween paxosLog start.toNat stop.toNat) := by
  have hcondition : ∀ i : UInt64, decide (i ≤ stop) = true ↔ i.toNat < stop.toNat + 1 := by
    intro i
    rw [decide_eq_true_eq, UInt64.le_iff_toNat_le, Nat.lt_succ_iff]
  exact entryLoop_eq paxosLog hstop hcondition fuel start (by omega)

/-- The loop up to a bound that is not included. -/
theorem entryLoop_lt (start : UInt64) {stop : UInt64} (hpos : 0 < stop.toNat) {fuel : ℕ}
    (hfuel : stop.toNat + 1 ≤ fuel) :
    entryLoop paxosLog (fun i => i < stop) fuel start =
      .ok (entriesBetween paxosLog start.toNat (stop.toNat - 1)) := by
  have hcondition : ∀ i : UInt64, decide (i < stop) = true ↔ i.toNat < stop.toNat := by
    intro i
    rw [decide_eq_true_eq, UInt64.lt_iff_toNat_lt]
  have hloop := entryLoop_eq paxosLog stop.toNat_lt hcondition fuel start (by omega)
  have hlen : stop.toNat - 1 + 1 = stop.toNat := by omega
  rw [hloop, entriesBetween, hlen]

theorem toNat_ofNat {m : ℕ} (h : m < 2 ^ 64) : (UInt64.ofNat m).toNat = m :=
  UInt64.toNat_ofNat_of_lt' h

theorem missingEntries_eq (hn : n < 2 ^ 64 - 1) {fuel : ℕ} (hfuel : n + 2 ≤ fuel)
    {subarrays : List IndexSubArray} (h : ∀ s ∈ subarrays, s.start < 2 ^ 64 ∧ s.end < 2 ^ 64) :
    missingEntries paxosLog fuel (UInt64.ofNat n) subarrays =
      .ok (LogSyncer.missingEntries paxosLog n subarrays) := by
  induction subarrays with
  | nil => rfl
  | cons s rest ih =>
      obtain ⟨hstart, hend⟩ := h s List.mem_cons_self
      have hcur := toNat_ofNat (m := n) (by omega)
      have hstop : (Words.min (UInt64.ofNat n) (UInt64.ofNat s.end)).toNat = Min.min n s.end := by
        rw [toNat_min, hcur, toNat_ofNat hend]
      have hclip : (Words.min (UInt64.ofNat n) (UInt64.ofNat s.end)).toNat + 2 ≤ fuel := by omega
      have hloop := entryLoop_le paxosLog (UInt64.ofNat s.start) (by omega) hclip
      rw [hstop, toNat_ofNat hstart] at hloop
      have hbreak : UInt64.ofNat s.start ≥ UInt64.ofNat n ↔ s.start ≥ n := by
        rw [ge_iff_le, UInt64.le_iff_toNat_le, hcur, toNat_ofNat hstart]
      simp only [missingEntries, LogSyncer.missingEntries, hbreak, hloop,
        ih fun s' hs' => h s' (List.mem_cons_of_mem _ hs')]
      split <;> rfl

variable {paxosLog}

/-- The function ends with the response that it has on natural numbers. -/
theorem buildSyncResponse_eq (hnext : paxosLog.nextAvailableIndex = .ok n)
    (hn : n < 2 ^ 64 - 1) {request : SyncRequest} (h : Fits request) {fuel : ℕ}
    (hfuel : n + 2 ≤ fuel) :
    ∃ response, LogSyncer.buildSyncResponse paxosLog request = .ok response ∧
      buildSyncResponse paxosLog fuel request = .ok response := by
  have hcur := toNat_ofNat (m := n) (by omega)
  have hlast := toNat_ofNat h.lastIndex
  have hmissing := missingEntries_eq paxosLog hn hfuel h.subarrays
  have hbeyond : UInt64.ofNat n > UInt64.ofNat request.lastIndex ↔ n > request.lastIndex := by
    rw [gt_iff_lt, UInt64.lt_iff_toNat_lt, hcur, hlast]
  by_cases hlt : n > request.lastIndex
  · have hadd : (UInt64.ofNat request.lastIndex + 1).toNat = request.lastIndex + 1 := by
      rw [UInt64.toNat_add, UInt64.toNat_one, hlast]
      omega
    have hbound : (UInt64.ofNat n).toNat + 1 ≤ fuel := by omega
    have hloop := entryLoop_lt paxosLog (UInt64.ofNat request.lastIndex + 1) (by omega) hbound
    rw [hadd, hcur] at hloop
    refine ⟨⟨LogSyncer.missingEntries paxosLog n request.missingIndices ++
      entriesBetween paxosLog (request.lastIndex + 1) (n - 1)⟩, ?_, ?_⟩
    · simp only [LogSyncer.buildSyncResponse, hnext, bind, Except.bind, if_pos hlt]
      rfl
    · simp only [buildSyncResponse, hnext, hmissing, bind, Except.bind, hbeyond, if_pos hlt, hloop]
      rfl
  · refine ⟨⟨LogSyncer.missingEntries paxosLog n request.missingIndices⟩, ?_, ?_⟩
    · simp only [LogSyncer.buildSyncResponse, hnext, bind, Except.bind, if_neg hlt]
      rfl
    · simp only [buildSyncResponse, hnext, hmissing, bind, Except.bind, hbeyond, if_neg hlt]
      rfl

end Words

/-! ## What a response carries -/

/-- An index that a request names before a subarray that starts at the first gap or behind
it. -/
def RequestedIn (n : ℕ) : List IndexSubArray → ℕ → Prop
  | [], _ => False
  | s :: rest, j => s.start < n ∧ ((s.start ≤ j ∧ j ≤ s.end) ∨ RequestedIn n rest j)

/-- An index below the first gap that a request asks for. -/
def Requested (n : ℕ) (request : SyncRequest) (j : ℕ) : Prop :=
  j < n ∧ (RequestedIn n request.missingIndices j ∨ request.lastIndex < j)

variable {paxosLog : PaxosLog κ} {n : ℕ}

theorem mem_entriesBetween {start stop : ℕ} {x : PaxosLogEntryWithIndex} :
    x ∈ entriesBetween paxosLog start stop ↔
      ∃ j, (start ≤ j ∧ j ≤ stop) ∧ ∃ entry, paxosLog.log j = some entry ∧
        x = ⟨UInt32.ofNat j, entry⟩ := by
  simp only [entriesBetween, List.mem_filterMap, List.mem_range'_1, Option.map_eq_some_iff,
    PaxosLog.getEntry]
  refine exists_congr fun j => and_congr ?_ ?_
  · omega
  · exact exists_congr fun entry => and_congr_right fun _ => eq_comm

theorem mem_missingEntries (hgap : paxosLog.log n = none) (subarrays : List IndexSubArray)
    (x : PaxosLogEntryWithIndex) :
    x ∈ missingEntries paxosLog n subarrays ↔
      ∃ j, (j < n ∧ RequestedIn n subarrays j) ∧ ∃ entry, paxosLog.log j = some entry ∧
        x = ⟨UInt32.ofNat j, entry⟩ := by
  induction subarrays with
  | nil => simp [missingEntries, RequestedIn]
  | cons s rest ih =>
      rw [missingEntries]
      by_cases hbreak : s.start ≥ n
      · simp [hbreak, RequestedIn, Nat.not_lt.mpr hbreak]
      · rw [if_neg hbreak, List.mem_append, mem_entriesBetween, ih, ← exists_or]
        refine exists_congr fun j => ?_
        rw [← or_and_right]
        refine and_congr_left ?_
        rintro ⟨entry, hentry, -⟩
        have hne : j ≠ n := by
          rintro rfl
          rw [hgap] at hentry
          cases hentry
        simp only [RequestedIn]
        grind

theorem mem_buildSyncResponse (hnext : paxosLog.nextAvailableIndex = .ok n)
    (hgap : paxosLog.log n = none) {request : SyncRequest} {response : SyncResponse}
    (h : buildSyncResponse paxosLog request = .ok response) (x : PaxosLogEntryWithIndex) :
    x ∈ response.missingEntries ↔
      ∃ j, Requested n request j ∧ ∃ entry, paxosLog.log j = some entry ∧
        x = ⟨UInt32.ofNat j, entry⟩ := by
  have hmissing := mem_missingEntries hgap request.missingIndices x
  simp only [buildSyncResponse, hnext, bind, Except.bind, pure, Except.pure] at h
  split at h
  · cases h
    rw [List.mem_append, mem_entriesBetween, hmissing, ← exists_or]
    refine exists_congr fun j => ?_
    rw [← or_and_right]
    refine and_congr_left fun _ => ?_
    simp only [Requested]
    grind
  · cases h
    rw [hmissing]
    refine exists_congr fun j => and_congr_left fun _ => ?_
    simp only [Requested]
    grind

/-! ## Safety -/

/-- The assertion of `next_available_index`. -/
theorem unset_of_nextAvailableIndex (hnext : paxosLog.nextAvailableIndex = .ok n) :
    paxosLog.log n = none := by
  simp only [PaxosLog.nextAvailableIndex] at hnext
  split at hnext
  · cases hnext
  · rename_i first rest _
    cases hlog : paxosLog.log first with
    | none =>
        simp only [hlog, universalAssert, bind, Except.bind, pure, Except.pure] at hnext
        cases hnext
        exact hlog
    | some entry => simp [hlog, universalAssert, bind, Except.bind] at hnext

/-- Every pair of a response is an entry of the log and its index. -/
def Sound (paxosLog : PaxosLog κ) (n : ℕ) (response : SyncResponse) : Prop :=
  ∀ x ∈ response.missingEntries,
    x.index.toNat < n ∧ paxosLog.log x.index.toNat = some x.entry

/-- With fuel for every index the log has an entry at, the function ends with `response`,
and no index overflows. -/
def RespondsWith (paxosLog : PaxosLog κ) (n : ℕ) (request : SyncRequest)
    (response : SyncResponse) : Prop :=
  ∀ fuel, n + 2 ≤ fuel → Words.buildSyncResponse paxosLog fuel request = .ok response

/-- The indices that do not fit into 32 bits hold what is at their lower bits. -/
def TruncatesTo (paxosLog : PaxosLog κ) (n : ℕ) (request : SyncRequest) : Prop :=
  ∀ j, Requested n request j → 2 ^ 32 ≤ j → ∀ entry, paxosLog.log j = some entry →
    paxosLog.log (j % 2 ^ 32) = some entry

theorem sound_iff (hnext : paxosLog.nextAvailableIndex = .ok n) {request : SyncRequest}
    {response : SyncResponse} (h : buildSyncResponse paxosLog request = .ok response) :
    Sound paxosLog n response ↔ TruncatesTo paxosLog n request := by
  have hmem := mem_buildSyncResponse hnext (unset_of_nextAvailableIndex hnext) h
  constructor
  · intro hsound j hj _ entry hentry
    simpa using (hsound _ ((hmem _).mpr ⟨j, hj, entry, hentry, rfl⟩)).2
  · intro htrunc x hx
    obtain ⟨j, hj, entry, hentry, rfl⟩ := (hmem x).mp hx
    have hlt := hj.1
    have hmod : (UInt32.ofNat j).toNat = j % 2 ^ 32 := by simp
    rw [hmod]
    refine ⟨(Nat.mod_le j _).trans_lt hlt, ?_⟩
    rcases Nat.lt_or_ge j (2 ^ 32) with hsmall | hlarge
    · rw [Nat.mod_eq_of_lt hsmall]
      exact hentry
    · exact htrunc j hj hlarge entry hentry

theorem respondsWith_unique {request : SyncRequest} {response response' : SyncResponse}
    (h : RespondsWith paxosLog n request response)
    (h' : RespondsWith paxosLog n request response') : response = response' := by
  have heq := (h (n + 2) le_rfl).symm.trans (h' (n + 2) le_rfl)
  exact Except.ok.inj heq

theorem exists_response (hnext : paxosLog.nextAvailableIndex = .ok n) (hn : n < 2 ^ 64 - 1)
    {request : SyncRequest} (h : Words.Fits request) :
    ∃ response, buildSyncResponse paxosLog request = .ok response ∧
      RespondsWith paxosLog n request response := by
  obtain ⟨response, hresponse, -⟩ := Words.buildSyncResponse_eq hnext hn h le_rfl
  refine ⟨response, hresponse, ?_⟩
  intro fuel hfuel
  obtain ⟨response', hresponse', hwords⟩ := Words.buildSyncResponse_eq hnext hn h hfuel
  rw [hresponse, Except.ok.injEq] at hresponse'
  rw [hwords, hresponse']

/-- The function answers every request, and its response is sound if and only if the
requested indices that do not fit into 32 bits hold what is at their lower bits. -/
theorem buildSyncResponse_safe_iff (hnext : paxosLog.nextAvailableIndex = .ok n)
    (hn : n < 2 ^ 64 - 1) {request : SyncRequest} (h : Words.Fits request) :
    (∃ response, RespondsWith paxosLog n request response) ∧
      ((∃ response, RespondsWith paxosLog n request response ∧ Sound paxosLog n response) ↔
        TruncatesTo paxosLog n request) := by
  obtain ⟨response, hresponse, hresponds⟩ := exists_response hnext hn h
  refine ⟨⟨response, hresponds⟩, ?_⟩
  rw [← sound_iff hnext hresponse]
  constructor
  · rintro ⟨response', hresponds', hsound⟩
    rw [respondsWith_unique hresponds hresponds']
    exact hsound
  · exact fun hsound => ⟨response, hresponds, hsound⟩

def sampleEntry (requestId : String) : PaxosLogEntry :=
  .read ⟨some requestId, some "k", some 1⟩

/-- A log with `n` entries, of which the one at index `2 ^ 32` is different. -/
def sampleLog (n : ℕ) : PaxosLog Unit where
  log i := if i < n then some (sampleEntry (if i = 2 ^ 32 then "r" else "q")) else none
  availableIndices := [n]
  callbacks _ := []

theorem sampleLog_next (n : ℕ) : (sampleLog n).nextAvailableIndex = .ok n := by
  simp [sampleLog, PaxosLog.nextAvailableIndex, universalAssert, bind, Except.bind, pure,
    Except.pure]

/-- A request with inverted and overlapping subarrays up to the largest index. -/
theorem buildSyncResponse_safe_sample :
    ∃ response, RespondsWith (sampleLog 3) 3
        ⟨[⟨2, 1⟩, ⟨0, 2 ^ 64 - 1⟩, ⟨1, 5⟩], 2 ^ 64 - 1⟩ response ∧
      Sound (sampleLog 3) 3 response := by
  have hfits : Words.Fits ⟨[⟨2, 1⟩, ⟨0, 2 ^ 64 - 1⟩, ⟨1, 5⟩], 2 ^ 64 - 1⟩ :=
    ⟨by simp, by decide⟩
  have hsafe := buildSyncResponse_safe_iff (sampleLog_next 3) (by decide) hfits
  refine hsafe.2.mpr ?_
  intro j hj hlarge
  have hlt := hj.1
  omega

theorem sampleLog_unset {n i : ℕ} (h : n ≤ i) : (sampleLog n).log i = none := by
  simp only [sampleLog]
  exact if_neg (Nat.not_lt.mpr h)

theorem sampleLog_set {n i : ℕ} (h : i < n) :
    (sampleLog n).log i = some (sampleEntry (if i = 2 ^ 32 then "r" else "q")) := by
  simp only [sampleLog]
  exact if_pos h

theorem sampleLog_wellFormed (n : ℕ) : (sampleLog (n + 1)).WellFormed := by
  refine ⟨n + 1, rfl, List.pairwise_singleton _ _, ?_, fun i hi => sampleLog_unset hi, ?_⟩
  · intro i
    refine ⟨fun hi => ?_, fun hi => ?_⟩
    · rw [List.mem_singleton.mp hi]
      exact ⟨le_rfl, sampleLog_unset le_rfl⟩
    · by_contra hne
      have hlt : i < n + 1 := lt_of_le_of_ne hi.1 fun heq => hne (List.mem_singleton.mpr heq)
      rw [sampleLog_set hlt] at hi
      cases hi.2
  · intro i hi
    rw [sampleLog_set (by omega)]
    rfl

/-- The entry at index `2 ^ 32` is sent under index `0`. -/
theorem buildSyncResponse_not_safe :
    (sampleLog (2 ^ 32 + 1)).WellFormed ∧
      (sampleLog (2 ^ 32 + 1)).nextAvailableIndex = .ok (2 ^ 32 + 1) ∧
      ¬ ∃ response, RespondsWith (sampleLog (2 ^ 32 + 1)) (2 ^ 32 + 1) ⟨[], 2 ^ 32 - 1⟩ response ∧
        Sound (sampleLog (2 ^ 32 + 1)) (2 ^ 32 + 1) response := by
  have hnext := sampleLog_next (2 ^ 32 + 1)
  have hfits : Words.Fits ⟨[], 2 ^ 32 - 1⟩ := ⟨by simp, by decide⟩
  refine ⟨sampleLog_wellFormed (2 ^ 32), hnext, ?_⟩
  rintro ⟨response, hresponds, hsound⟩
  obtain ⟨response', hresponse', hresponds'⟩ := exists_response hnext (by decide) hfits
  rw [respondsWith_unique hresponds hresponds'] at hsound
  have htrunc := (sound_iff hnext hresponse').mp hsound
  have hlarge : (sampleLog (2 ^ 32 + 1)).log (2 ^ 32) = some (sampleEntry "r") :=
    sampleLog_set (by omega)
  have hsmall : (sampleLog (2 ^ 32 + 1)).log (2 ^ 32 % 2 ^ 32) = some (sampleEntry "q") :=
    sampleLog_set (by omega)
  have hsame := htrunc (2 ^ 32) ⟨by omega, .inr (by simp)⟩ le_rfl (sampleEntry "r") hlarge
  rw [hsmall] at hsame
  exact absurd hsame (by decide)

end UniversalDB.LogSyncer
