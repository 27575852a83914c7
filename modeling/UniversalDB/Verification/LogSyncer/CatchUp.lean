import Mathlib.Data.List.Perm.Subperm
import Mathlib.Data.List.Sort
import UniversalDB.Verification.LogSyncer.Encoding
import UniversalDB.Verification.PaxosLog.Callbacks

/-! # Log catch-up -/

namespace UniversalDB.LogSyncer

open PaxosLog

variable {κ : Type} {requester responder : PaxosLog κ} {curLastIndex : ℕ}

theorem range_append_range' {a b : ℕ} (h : a ≤ b) :
    List.range b = List.range a ++ List.range' a (b - a) := by
  have hsplit := List.range'_append_1 (s := 0) (m := a) (n := b - a)
  rw [Nat.zero_add, Nat.add_sub_cancel' h] at hsplit
  rw [List.range_eq_range', List.range_eq_range', hsplit]

/-! ## The request -/

theorem requestFor_of_long (h : 2 ^ 31 ≤ requester.getAvailableIndices.length) :
    requestFor requester = none := by
  apply buildSyncRequest_of_long
  rw [List.length_map, INT_MAX]
  omega

/-- The last available index is right behind the last entry. -/
theorem last_le {last bound : ℕ} (h : requester.Available last)
    (hbound : ∀ i, (requester.log i).isSome → i < bound) : last ≤ bound := by
  cases last with
  | zero => exact Nat.zero_le bound
  | succ i => exact hbound i (h.populated i rfl)

/-- On a log whose indices have 64 bits, the words of the request stand for the available
indices. -/
theorem requestFor_eq (hwf : requester.WellFormed)
    (hbound : ∀ i, (requester.log i).isSome → i < 2 ^ 64 - 1)
    (hlength : requester.getAvailableIndices.length < 2 ^ 31) :
    requestFor requester = some (encode requester.availableIndices) := by
  obtain ⟨last, havail⟩ := hwf
  have hlast := last_le havail hbound
  have hsmall : ∀ i ∈ requester.availableIndices, (UInt64.ofNat i).toNat = i := by
    intro i hi
    apply UInt64.toNat_ofNat_of_lt'
    have hle := ((havail.mem_iff i).mp hi).1
    simp only [UInt64.size]
    omega
  have hback : (requester.availableIndices.map UInt64.ofNat).map UInt64.toNat =
      requester.availableIndices := by
    rw [List.map_map]
    exact (List.map_congr_left hsmall).trans (List.map_id _)
  have hne : requester.availableIndices.map UInt64.ofNat ≠ [] := by
    obtain ⟨first, rest, hcons⟩ := havail.exists_cons
    simp [hcons]
  have hascending : (requester.availableIndices.map UInt64.ofNat).Pairwise (· < ·) := by
    rw [List.pairwise_map]
    refine havail.ascending.imp_of_mem ?_
    intro i j hi hj hlt
    rw [UInt64.lt_iff_toNat_lt, hsmall i hi, hsmall j hj]
    exact hlt
  rw [requestFor, getAvailableIndices, buildSyncRequest_eq hne ?_ hascending, hback]
  rw [List.length_map, INT_MAX]
  simp only [getAvailableIndices] at hlength
  omega

/-- A request that a log syncer sends names the available indices. -/
theorem encode_of_requestFor (hwf : requester.WellFormed)
    (hbound : ∀ i, (requester.log i).isSome → i < 2 ^ 64 - 1) {request : SyncRequest}
    (h : requestFor requester = some request) :
    request = encode requester.availableIndices := by
  have hlength : requester.getAvailableIndices.length < 2 ^ 31 := by
    by_contra hlong
    rw [requestFor_of_long (Nat.le_of_not_lt hlong)] at h
    cases h
  rw [requestFor_eq hwf hbound hlength] at h
  exact (Option.some.inj h).symm

/-! ## The response -/

/-- The available indices are the ones up to the last of them that have no entry. -/
theorem availableIndices_eq {last : ℕ} (h : requester.Available last) :
    requester.availableIndices =
      (List.range (last + 1)).filter fun i => (requester.log i).isNone := by
  have hfilter : ((List.range (last + 1)).filter fun i =>
      (requester.log i).isNone).Pairwise (· < ·) :=
    List.pairwise_lt_range.filter _
  apply h.ascending.eq_of_mem_iff hfilter
  intro i
  rw [h.mem_iff, List.mem_filter, List.mem_range, Option.isNone_iff_eq_none,
    Nat.lt_succ_iff]

/-- What a requester misses of a responder at an index. -/
def missingAt (requester responder : PaxosLog κ) (curLastIndex i : ℕ) :
    Option PaxosLogEntryWithIndex :=
  if (requester.getEntry i).isNone then sentFor responder curLastIndex i else none

theorem missingAt_of_le {i : ℕ} (h : curLastIndex ≤ i) :
    missingAt requester responder curLastIndex i = none := by
  rw [missingAt, sentFor, if_neg (Nat.not_lt.mpr h), ite_self]

/-- The response holds what the requester misses, index by index. -/
theorem buildSyncResponse_eq (hrequester : requester.WellFormed)
    (hresponder : responder.WellFormed) (hgap : responder.log.FirstGap curLastIndex) :
    buildSyncResponse responder (encode requester.availableIndices) =
      .ok ⟨(List.range curLastIndex).filterMap
        (missingAt requester responder curLastIndex)⟩ := by
  obtain ⟨last, havail⟩ := hrequester
  have hnext := hresponder.nextAvailableIndex_eq.mpr hgap
  obtain ⟨hexpand, hnonempty, hlast⟩ := encode_spec havail.getLast
  have hascending := havail.ascending
  rw [← hexpand] at hascending
  have hholes : missingEntries responder curLastIndex
      (encode requester.availableIndices).missingIndices =
        (List.range (last + 1)).filterMap (missingAt requester responder curLastIndex) := by
    rw [missingEntries_eq hgap.unset hnonempty hascending, hexpand,
      availableIndices_eq havail, List.filterMap_filter]
    rfl
  simp only [buildSyncResponse, hnext, bind, Except.bind, hholes, hlast]
  split
  · rename_i hbehind
    -- the requester has nothing behind its last available index
    have htail : entriesBetween responder (last + 1) (curLastIndex - 1) =
        (List.range' (last + 1) (curLastIndex - (last + 1))).filterMap
          (missingAt requester responder curLastIndex) := by
      have hlen : curLastIndex - 1 + 1 - (last + 1) = curLastIndex - (last + 1) := by omega
      rw [entriesBetween, hlen]
      apply List.filterMap_congr
      intro i hi
      rw [List.mem_range'_1] at hi
      have hunset : requester.getEntry i = none := havail.unset i (by omega)
      have hbelow : i < curLastIndex := by omega
      simp [missingAt, sentFor, hunset, hbelow]
    rw [htail, ← List.filterMap_append, ← range_append_range' hbehind]
    rfl
  · rename_i hahead
    have hrest : (List.range' curLastIndex (last + 1 - curLastIndex)).filterMap
        (missingAt requester responder curLastIndex) = [] := by
      rw [List.filterMap_eq_nil_iff]
      intro i hi
      exact missingAt_of_le (List.mem_range'_1.mp hi).1
    rw [range_append_range' (by omega : curLastIndex ≤ last + 1), List.filterMap_append, hrest,
      List.append_nil]
    rfl

/-! ## The log after the response -/

/-- The pairs that `handleSyncResponse` sets. -/
def missingPairs (requester responder : PaxosLog κ) (curLastIndex : ℕ) :
    List (ℕ × PaxosLogEntry) :=
  (List.range curLastIndex).filterMap fun i =>
    if (requester.getEntry i).isNone then (responder.getEntry i).map fun e => (i, e) else none

/-- The index field of a response is wide enough for the indices of the responder. -/
theorem map_missingAt (requester : PaxosLog κ) (curLastIndex : ℕ)
    (hwidth : ∀ i, (responder.log i).isSome → i < 2 ^ 32) :
    ((List.range curLastIndex).filterMap (missingAt requester responder curLastIndex)).map
        (fun x => (x.index.toNat, x.entry)) =
      missingPairs requester responder curLastIndex := by
  rw [List.map_filterMap, missingPairs]
  apply List.filterMap_congr
  intro i hi
  rw [missingAt, sentFor, if_pos (List.mem_range.mp hi)]
  split
  · rw [Option.map_map]
    cases hentry : responder.getEntry i with
    | none => rfl
    | some e =>
        have hi' : i < 2 ^ 32 := hwidth i (by rw [show responder.log i = some e from hentry]; rfl)
        have htoNat : (UInt32.ofNat i).toNat = i := UInt32.toNat_ofNat_of_lt' hi'
        simp [htoNat]
  · rfl

theorem mem_missingPairs {p : ℕ × PaxosLogEntry} :
    p ∈ missingPairs requester responder curLastIndex ↔
      p.1 < curLastIndex ∧ requester.getEntry p.1 = none ∧
        responder.getEntry p.1 = some p.2 := by
  obtain ⟨index, entry⟩ := p
  simp only [missingPairs, List.mem_filterMap, List.mem_range]
  constructor
  · rintro ⟨i, hi, hsome⟩
    split at hsome
    · rename_i hnone
      obtain ⟨e, he, heq⟩ := Option.map_eq_some_iff.mp hsome
      cases heq
      exact ⟨hi, Option.isNone_iff_eq_none.mp hnone, he⟩
    · cases hsome
  · rintro ⟨hi, hnone, he⟩
    exact ⟨index, hi, by simp [hnone, he]⟩

theorem firstEntry_missingPairs (i : ℕ) :
    firstEntry (missingPairs requester responder curLastIndex) i =
      if i < curLastIndex ∧ requester.getEntry i = none then responder.getEntry i else none := by
  cases hfirst : firstEntry (missingPairs requester responder curLastIndex) i with
  | none =>
      split
      · rename_i hmissing
        cases hentry : responder.getEntry i with
        | none => rfl
        | some e =>
            have hmem : (i, e) ∈ missingPairs requester responder curLastIndex :=
              mem_missingPairs.mpr ⟨hmissing.1, hmissing.2, hentry⟩
            rw [firstEntry, Option.map_eq_none_iff, List.find?_eq_none] at hfirst
            exact absurd (decide_eq_true rfl) (hfirst _ hmem)
      · rfl
  | some e =>
      obtain ⟨hlt, hnone, hentry⟩ := mem_missingPairs.mp (mem_of_firstEntry hfirst)
      rw [if_pos ⟨hlt, hnone⟩, hentry]

/-! ## The exchange -/

/-- The requester asks the responder. The response holds exactly what the responder has in
front of its first gap and the requester misses, each entry once and by ascending index. The
requester then has exactly these entries more, is not behind the responder, and is sent
nothing when it asks again. -/
def CaughtUp (requester responder : PaxosLog κ) : Prop :=
  ∃ request response requester' calls m m' curLastIndex request',
    requestFor requester = some request ∧
    responder.nextAvailableIndex = .ok curLastIndex ∧
    buildSyncResponse responder request = .ok response ∧
    response.missingEntries.map (fun x => (x.index.toNat, x.entry)) =
      (List.range curLastIndex).filterMap (fun i =>
        if (requester.getEntry i).isNone then (responder.getEntry i).map fun e => (i, e)
        else none) ∧
    handleSyncResponse requester response = .ok (requester', calls) ∧
    (∀ i, requester'.getEntry i = (requester.getEntry i).or
      (if i < curLastIndex then responder.getEntry i else none)) ∧
    requester.nextAvailableIndex = .ok m ∧ requester'.nextAvailableIndex = .ok m' ∧
    m ≤ m' ∧ curLastIndex ≤ m' ∧
    requestFor requester' = some request' ∧ buildSyncResponse responder request' = .ok ⟨[]⟩

/-- The log after the exchange. -/
structure CatchesUp (requester responder requester' : PaxosLog κ) (curLastIndex : ℕ) :
    Prop where
  wellFormed : requester'.WellFormed
  subMap : requester.log.SubMap requester'.log
  entry : ∀ i, requester'.getEntry i = (requester.getEntry i).or
    (if i < curLastIndex then responder.getEntry i else none)
  reached : ∀ i < curLastIndex, (requester'.getEntry i).isSome

/-- Every entry of the log after the exchange comes from one of the two. -/
theorem CatchesUp.bounded {requester' : PaxosLog κ} {bound : ℕ}
    (h : CatchesUp requester responder requester' curLastIndex)
    (hrequester : ∀ i, (requester.log i).isSome → i < bound)
    (hresponder : ∀ i, (responder.log i).isSome → i < bound) :
    ∀ i, (requester'.log i).isSome → i < bound := by
  intro i hi
  have hentry := h.entry i
  simp only [getEntry] at hentry
  rw [hentry] at hi
  cases hold : requester.log i with
  | some e => exact hrequester i (by rw [hold]; rfl)
  | none =>
      rw [hold, Option.none_or] at hi
      split at hi
      · exact hresponder i hi
      · cases hi

/-- Filling a log up to an index, with no change behind it, opens no new gap: either all
available indices were available before, or the index is the only one. -/
theorem length_le_of_filled {l l' : PaxosLog κ} (hl : l.WellFormed) (hl' : l'.WellFormed)
    {bound : ℕ} (hfilled : ∀ i < bound, (l'.log i).isSome)
    (hbehind : ∀ i, bound ≤ i → l'.log i = l.log i) :
    l'.getAvailableIndices.length ≤ l.getAvailableIndices.length := by
  obtain ⟨last, havail⟩ := hl
  obtain ⟨last', havail'⟩ := hl'
  have hunset : ∀ i, l'.log i = none → l.log i = none ∧ bound ≤ i := by
    intro i hi
    have hge : bound ≤ i := by
      by_contra hlt
      have hsome := hfilled i (by omega)
      rw [hi] at hsome
      cases hsome
    exact ⟨(hbehind i hge).symm.trans hi, hge⟩
  have hlast' : last' ≤ max last bound := by
    cases last' with
    | zero => exact Nat.zero_le _
    | succ i =>
        have hsome := havail'.populated i rfl
        by_contra hbeyond
        rw [hbehind i (by omega), havail.unset i (by omega)] at hsome
        cases hsome
  rcases Nat.lt_or_ge last bound with hnew | hold
  · have hsingle : l'.availableIndices ⊆ [bound] := by
      intro i hi
      obtain ⟨hle, hnone⟩ := (havail'.mem_iff i).mp hi
      have hge := (hunset i hnone).2
      rw [List.mem_singleton]
      omega
    obtain ⟨first, rest, hcons⟩ := havail.exists_cons
    have hlength := (havail'.ascending.nodup.subperm hsingle).length_le
    simp only [getAvailableIndices, hcons, List.length_cons]
    simp only [List.length_singleton] at hlength
    omega
  · have hmem : l'.availableIndices ⊆ l.availableIndices := by
      intro i hi
      obtain ⟨hle, hnone⟩ := (havail'.mem_iff i).mp hi
      exact (havail.mem_iff i).mpr ⟨by omega, (hunset i hnone).1⟩
    exact (havail'.ascending.nodup.subperm hmem).length_le

/-- An entry that the old log misses and the new log has is not replaced, so only what the
new log misses counts. -/
theorem or_missing {asked : PaxosLog κ} (hsub : asked.log.SubMap requester.log) (i : ℕ) :
    (requester.log i).or
        (if i < curLastIndex ∧ asked.getEntry i = none then responder.getEntry i else none) =
      (requester.log i).or (if i < curLastIndex then responder.log i else none) := by
  cases hentry : requester.log i with
  | some entry => rfl
  | none =>
      have hasked : asked.log i = none := by
        cases hold : asked.log i with
        | none => rfl
        | some entry =>
            rw [hsub i entry hold] at hentry
            cases hentry
      simp [hasked, getEntry]

/-- The answer to a request, which may have been built when the log held less. -/
theorem handleSyncResponse_stale {asked : PaxosLog κ} (hasked : asked.WellFormed)
    (hrequester : requester.WellFormed) (hsub : asked.log.SubMap requester.log)
    (hresponder : responder.WellFormed) (hgap : responder.log.FirstGap curLastIndex)
    (hwidth : ∀ i, (responder.log i).isSome → i < 2 ^ 32) {response : SyncResponse}
    (hresponse : buildSyncResponse responder (encode asked.availableIndices) =
      .ok response) :
    ∃ requester' calls, handleSyncResponse requester response = .ok (requester', calls) ∧
      CatchesUp requester responder requester' curLastIndex := by
  rw [buildSyncResponse_eq hasked hresponder hgap] at hresponse
  cases hresponse
  have hpairs := map_missingAt asked curLastIndex hwidth
  obtain ⟨requester', calls, hset, hspec⟩ := hrequester.setEntries
    (missingPairs asked responder curLastIndex) (by
      intro p hp
      have hi : p.1 < 2 ^ 32 := by
        apply hwidth
        rw [show responder.log p.1 = some p.2 from (mem_missingPairs.mp hp).2.2]
        rfl
      exact hi.trans (by decide))
  have hentry : ∀ i, requester'.getEntry i = (requester.getEntry i).or
      (if i < curLastIndex then responder.getEntry i else none) := by
    intro i
    have hi := hspec.log i
    rw [firstEntry_missingPairs] at hi
    exact hi.trans (or_missing hsub i)
  refine ⟨requester', calls, ?_, hspec.wellFormed, hspec.subMap, hentry, ?_⟩
  · rw [handleSyncResponse, hpairs]
    exact hset
  · intro i hi
    obtain ⟨e, he⟩ := Option.isSome_iff_exists.mp (hgap.below i hi)
    rw [hentry i, if_pos hi, show responder.getEntry i = some e from he]
    cases requester.getEntry i <;> rfl

theorem CatchesUp.behind {requester' : PaxosLog κ}
    (h : CatchesUp requester responder requester' curLastIndex) (i : ℕ)
    (hi : curLastIndex ≤ i) : requester'.log i = requester.log i := by
  have hentry := h.entry i
  rw [if_neg (Nat.not_lt.mpr hi), Option.or_none] at hentry
  exact hentry

theorem CatchesUp.length_le {requester' : PaxosLog κ}
    (h : CatchesUp requester responder requester' curLastIndex)
    (hrequester : requester.WellFormed) :
    requester'.getAvailableIndices.length ≤ requester.getAvailableIndices.length :=
  length_le_of_filled hrequester h.wellFormed h.reached h.behind

/-- A log that has caught up is sent nothing. -/
theorem CatchesUp.nothing_missing {requester' : PaxosLog κ}
    (h : CatchesUp requester responder requester' curLastIndex) :
    (List.range curLastIndex).filterMap (missingAt requester' responder curLastIndex) = [] := by
  rw [List.filterMap_eq_nil_iff]
  intro i hi
  have hsome := h.reached i (List.mem_range.mp hi)
  have hfound : (requester'.getEntry i).isNone = false := by simpa using hsome
  simp [missingAt, hfound]

theorem caughtUp_of_short (hrequester : requester.WellFormed)
    (hresponder : responder.WellFormed)
    (hwidth : ∀ i, (requester.log i).isSome → i < 2 ^ 32)
    (hwidth' : ∀ i, (responder.log i).isSome → i < 2 ^ 32)
    (hlength : requester.getAvailableIndices.length < 2 ^ 31) :
    CaughtUp requester responder := by
  have hwords : ∀ i, i < 2 ^ 32 → i < 2 ^ 64 - 1 := by
    intro i hi
    omega
  obtain ⟨m, hm, hgap⟩ := hrequester.nextAvailableIndex
  obtain ⟨curLastIndex, hcur, hcurGap⟩ := hresponder.nextAvailableIndex
  have hresponse := buildSyncResponse_eq hrequester hresponder hcurGap
  obtain ⟨requester', calls, hhandle, hcatch⟩ :=
    handleSyncResponse_stale hrequester hrequester (.refl _) hresponder hcurGap hwidth' hresponse
  obtain ⟨m', hm', hgap'⟩ := hcatch.wellFormed.nextAvailableIndex
  have hlength' := hcatch.length_le hrequester
  refine ⟨_, _, requester', calls, m, m', curLastIndex, _,
    requestFor_eq hrequester (fun i hi => hwords i (hwidth i hi)) hlength, hcur, hresponse,
    map_missingAt requester curLastIndex hwidth', hhandle, hcatch.entry, hm, hm', ?_, ?_,
    requestFor_eq hcatch.wellFormed
      (fun i hi => hwords i (hcatch.bounded hwidth hwidth' i hi)) (by omega), ?_⟩
  · exact hgap.le_of_subMap hgap' hcatch.subMap
  · by_contra hlt
    have hsome := hcatch.reached m' (by omega)
    rw [show requester'.getEntry m' = none from hgap'.unset] at hsome
    cases hsome
  · rw [buildSyncResponse_eq hcatch.wellFormed hresponder hcurGap, hcatch.nothing_missing]

theorem not_caughtUp_of_long (h : 2 ^ 31 ≤ requester.getAvailableIndices.length) :
    ¬ CaughtUp requester responder := by
  rintro ⟨request, -, -, -, -, -, -, -, hrequest, -⟩
  rw [requestFor_of_long h] at hrequest
  cases hrequest

/-- A log that is built by `setEntry`. -/
theorem exists_setEntries (registrations : List (EntryContentCase × κ))
    (entries : List (ℕ × PaxosLogEntry)) (hindex : ∀ p ∈ entries, p.1 < 2 ^ 32) :
    ∃ paxosLog calls, (register registrations).setEntries entries = .ok (paxosLog, calls) ∧
      paxosLog.WellFormed ∧ ∀ i, (paxosLog.log i).isSome → i < 2 ^ 32 := by
  obtain ⟨paxosLog, calls, hset, hspec⟩ := (register_wellFormed registrations).setEntries
    entries fun p hp => (hindex p hp).trans (by decide)
  refine ⟨paxosLog, calls, hset, hspec.wellFormed, ?_⟩
  intro i hi
  obtain ⟨e, he⟩ := Option.isSome_iff_exists.mp hi
  rw [hspec.log i, register_log, KeyMap.empty_apply, Option.none_or] at he
  exact hindex _ (mem_of_firstEntry he)

/-- Whatever two logs hold: the requester catches up with the responder if and only if the
positions of its available indices are `int`s. -/
theorem catch_up_exact_iff (registrations registrations' : List (EntryContentCase × κ))
    (entries entries' : List (ℕ × PaxosLogEntry)) (hindex : ∀ p ∈ entries, p.1 < 2 ^ 32)
    (hindex' : ∀ p ∈ entries', p.1 < 2 ^ 32) :
    ∃ requester responder calls calls',
      (register registrations).setEntries entries = .ok (requester, calls) ∧
      (register registrations').setEntries entries' = .ok (responder, calls') ∧
      (CaughtUp requester responder ↔ requester.getAvailableIndices.length < 2 ^ 31) := by
  obtain ⟨requester, calls, hset, hwf, hwidth⟩ := exists_setEntries registrations entries hindex
  obtain ⟨responder, calls', hset', hwf', hwidth'⟩ :=
    exists_setEntries registrations' entries' hindex'
  refine ⟨requester, responder, calls, calls', hset, hset', ?_, ?_⟩
  · intro hcaught
    by_contra hlong
    exact not_caughtUp_of_long (Nat.le_of_not_lt hlong) hcaught
  · exact caughtUp_of_short hwf hwf' hwidth hwidth'

/-- A requester with holes in front of and behind the first gap of the responder. -/
theorem catch_up_exact_holes :
    ∃ (requester responder : PaxosLog ℕ) (calls calls' : List (Call ℕ)),
      (register []).setEntries [(1, .notSet), (4, .notSet)] = .ok (requester, calls) ∧
      (register []).setEntries [(0, .reconfigFinished), (1, .notSet), (2, .reconfigFinished),
        (5, .notSet)] = .ok (responder, calls') ∧
      CaughtUp requester responder := by
  obtain ⟨requester, responder, calls, calls', hset, hset', hiff⟩ :=
    catch_up_exact_iff ([] : List (_ × ℕ)) [] [(1, .notSet), (4, .notSet)]
      [(0, .reconfigFinished), (1, .notSet), (2, .reconfigFinished), (5, .notSet)]
      (by decide) (by decide)
  refine ⟨requester, responder, calls, calls', hset, hset', hiff.mpr ?_⟩
  cases hset
  decide

/-! ## A log with too many gaps -/

/-- An entry far behind the start makes all indices in front of it available. -/
theorem setEntries_far (entry : PaxosLogEntry) {index : ℕ} (hpos : 0 < index) :
    ∃ paxosLog : PaxosLog κ, (register []).setEntries [(index, entry)] = .ok (paxosLog, []) ∧
      paxosLog.getAvailableIndices.length = index + 1 := by
  have htake : takeIndex [0] 0 index =
      0 :: (List.range' 1 (index - 1) ++ [(index + 1) % 2 ^ 64]) := by
    rw [takeIndex, if_neg (Nat.not_lt_zero index), if_neg (by omega)]
    rfl
  have hunset : (KeyMap.empty.insert index entry) 0 = none := by
    rw [KeyMap.insert_of_ne _ _ (Nat.ne_of_lt hpos)]
    rfl
  refine ⟨⟨KeyMap.empty.insert index entry, takeIndex [0] 0 index, fun _ => []⟩, ?_, ?_⟩
  · have hset : (new : PaxosLog κ).setEntry index entry =
        .ok (⟨KeyMap.empty.insert index entry, takeIndex [0] 0 index, fun _ => []⟩, []) := by
      simp [setEntry, new, htake, nextAvailableIndex, universalAssert, hunset, bind,
        Except.bind, pure, Except.pure, callsBetween]
    simp only [register, List.foldl_nil, setEntries, hset]
    rfl
  · simp only [getAvailableIndices, htake, List.length_cons, List.length_append,
      List.length_range', List.length_nil]
    omega

/-- The only entry has the index `2 ^ 31 - 1`: there are `2 ^ 31` available indices, and the
request cannot be built. -/
theorem catch_up_not_exact :
    ∃ (requester responder : PaxosLog ℕ) (calls calls' : List (Call ℕ)),
      (register []).setEntries [(2 ^ 31 - 1, .notSet)] = .ok (requester, calls) ∧
      (register []).setEntries [(0, .reconfigFinished)] = .ok (responder, calls') ∧
      ¬ CaughtUp requester responder := by
  obtain ⟨requester, hset, hlength⟩ :=
    setEntries_far (κ := ℕ) .notSet (by decide : 0 < 2 ^ 31 - 1)
  obtain ⟨responder, calls', hset', -⟩ :=
    exists_setEntries ([] : List (_ × ℕ)) [(0, .reconfigFinished)] (by decide)
  refine ⟨requester, responder, [], calls', hset, hset', not_caughtUp_of_long ?_⟩
  rw [hlength]
  decide

end UniversalDB.LogSyncer
