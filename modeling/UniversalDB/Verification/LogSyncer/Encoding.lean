import UniversalDB.Verification.LogSyncer.Holes

/-! # The encoding of holes is exact

The subarrays of a request are the maximal runs of the available indices. The loop that
builds them gets to the end of every list whose positions are `int`s. -/

namespace UniversalDB.LogSyncer

/-! ## Maximal runs -/

theorem subarrays_start (rest : List ℕ) :
    ∀ {curStart curEnd : ℕ}, curStart ≤ curEnd → (curEnd :: rest).Pairwise (· < ·) →
      ∀ s ∈ subarrays curStart curEnd curEnd rest, curStart ≤ s.start := by
  induction rest with
  | nil =>
      intro curStart curEnd _ _ s hs
      cases List.mem_singleton.mp hs
      exact Nat.le_refl curStart
  | cons index rest ih =>
      intro curStart curEnd hle hascending s hs
      have hlt : curEnd < index := (List.pairwise_cons.mp hascending).1 index List.mem_cons_self
      rw [subarrays] at hs
      split at hs
      · rename_i hnext
        subst hnext
        exact ih (by omega) hascending.tail s hs
      · rcases List.mem_cons.mp hs with rfl | hs
        · exact Nat.le_refl curStart
        · have hstart := ih (Nat.le_refl index) hascending.tail s hs
          omega

/-- Between two subarrays there is an index that is not available. -/
def Apart (s s' : IndexSubArray) : Prop := s.end + 1 < s'.start

theorem subarrays_apart (rest : List ℕ) :
    ∀ {curStart curEnd : ℕ}, curStart ≤ curEnd → (curEnd :: rest).Pairwise (· < ·) →
      (subarrays curStart curEnd curEnd rest).Pairwise Apart := by
  induction rest with
  | nil =>
      intro curStart curEnd _ _
      exact List.pairwise_singleton _ _
  | cons index rest ih =>
      intro curStart curEnd hle hascending
      have hlt : curEnd < index := (List.pairwise_cons.mp hascending).1 index List.mem_cons_self
      rw [subarrays]
      split
      · rename_i hnext
        subst hnext
        exact ih (by omega) hascending.tail
      · rename_i hgap
        refine (ih (Nat.le_refl index) hascending.tail).cons ?_
        intro s hs
        have hstart := subarrays_start rest (Nat.le_refl index) hascending.tail s hs
        simp only [Apart]
        omega

theorem mem_expand {subarrays : List IndexSubArray} {i : ℕ} :
    i ∈ expand subarrays ↔ ∃ s ∈ subarrays, s.start ≤ i ∧ i ≤ s.end := by
  simp only [expand, List.mem_flatMap, List.mem_range'_1]
  refine exists_congr fun s => and_congr_right fun _ => ?_
  omega

/-! ## The loop on machine words -/

theorem toNat_add_one {a b : UInt64} (h : a < b) : (a + 1).toNat = a.toNat + 1 := by
  have hlt := UInt64.lt_iff_toNat_lt.mp h
  have hb := b.toNat_lt
  rw [UInt64.toNat_add, UInt64.toNat_one]
  omega

/-- The loop is lost at the largest position, if the list goes on behind it. -/
theorem subarrayLoop_of_long {availableIndices : List UInt64}
    (h : INT_MAX < availableIndices.length) (i : ℕ) (hi : i ≤ INT_MAX)
    (curSubarray : UInt64 × UInt64) (subarrays : List (UInt64 × UInt64)) :
    subarrayLoop availableIndices curSubarray subarrays i = none := by
  fun_induction subarrayLoop availableIndices curSubarray subarrays i with
  | case1 curSubarray subarrays hlt => rfl
  | case2 curSubarray subarrays i hlt hne hnext ih => exact ih (by omega)
  | case3 curSubarray subarrays i hlt hne hgap ih => exact ih (by omega)
  | case4 curSubarray subarrays i hge => omega

/-- On a list whose positions are `int`s the loop builds what it builds on natural
numbers. -/
theorem subarrayLoop_eq {availableIndices : List UInt64}
    (h : availableIndices.length ≤ INT_MAX) (hascending : availableIndices.Pairwise (· < ·))
    (i : ℕ) (hpos : 0 < i) (hi : i ≤ availableIndices.length)
    (curSubarray : UInt64 × UInt64) (subarrays : List (UInt64 × UInt64))
    (hend : curSubarray.2 = availableIndices[i - 1]) :
    (subarrayLoop availableIndices curSubarray subarrays i).map (List.map indexSubArray) =
      some (subarrays.map indexSubArray ++
        LogSyncer.subarrays curSubarray.1.toNat curSubarray.2.toNat curSubarray.2.toNat
          ((availableIndices.drop i).map UInt64.toNat)) := by
  fun_induction subarrayLoop availableIndices curSubarray subarrays i with
  | case1 curSubarray subarrays hlt => omega
  | case2 curSubarray subarrays i hlt hne hnext ih =>
      have hless : availableIndices[i - 1] < availableIndices[i] :=
        List.pairwise_iff_getElem.mp hascending (i - 1) i (by omega) hlt (by omega)
      have hadd := toNat_add_one hless
      rw [ih (by omega) (by omega) (by simp [hend, hnext]), List.drop_eq_getElem_cons hlt,
        List.map_cons, LogSyncer.subarrays, if_pos (by rw [hend, ← hadd, hnext]), ← hnext, hend,
        hadd]
  | case3 curSubarray subarrays i hlt hne hgap ih =>
      have hless : availableIndices[i - 1] < availableIndices[i] :=
        List.pairwise_iff_getElem.mp hascending (i - 1) i (by omega) hlt (by omega)
      have hgap' : curSubarray.2.toNat + 1 ≠ availableIndices[i].toNat := by
        rw [hend, ← toNat_add_one hless]
        exact fun heq => hgap (UInt64.toNat.inj heq)
      rw [ih (by omega) (by omega) rfl, List.drop_eq_getElem_cons hlt, List.map_cons,
        LogSyncer.subarrays, if_neg hgap']
      simp [indexSubArray]
  | case4 curSubarray subarrays i hge =>
      rw [List.drop_eq_nil_of_le (by omega)]
      simp [LogSyncer.subarrays, indexSubArray]

/-- The request for a list whose positions are `int`s. -/
theorem buildSyncRequest_eq {availableIndices : List UInt64} (hne : availableIndices ≠ [])
    (h : availableIndices.length ≤ INT_MAX) (hascending : availableIndices.Pairwise (· < ·)) :
    buildSyncRequest availableIndices =
      some (encode (availableIndices.map UInt64.toNat)) := by
  cases availableIndices with
  | nil => exact absurd rfl hne
  | cons first rest =>
      have hloop := subarrayLoop_eq h hascending 1 (by omega) (by simp) (first, first) [] rfl
      obtain ⟨built, hbuilt, hmap⟩ := Option.map_eq_some_iff.mp hloop
      simp only [buildSyncRequest, hbuilt, encode, List.map_cons,
        Option.map_some, Option.some.injEq, SyncRequest.mk.injEq]
      refine ⟨hmap, ?_⟩
      have hcons : (first :: rest).map UInt64.toNat ≠ [] := List.cons_ne_nil _ _
      exact (List.getLast_map hcons).symm

theorem buildSyncRequest_of_long {availableIndices : List UInt64}
    (h : INT_MAX < availableIndices.length) : buildSyncRequest availableIndices = none := by
  cases availableIndices with
  | nil => simp at h
  | cons first rest =>
      simp [buildSyncRequest, subarrayLoop_of_long h 1 (by decide)]

/-- A request encodes a list of available indices exactly. -/
structure Exact (availableIndices : List UInt64) (request : SyncRequest) : Prop where
  nonempty : ∀ s ∈ request.missingIndices, s.start ≤ s.end
  /-- The subarrays are ascending, disjoint and as long as possible. -/
  apart : request.missingIndices.Pairwise Apart
  covered : ∀ i, (∃ s ∈ request.missingIndices, s.start ≤ i ∧ i ≤ s.end) ↔
    i ∈ availableIndices.map UInt64.toNat
  expands : expand request.missingIndices = availableIndices.map UInt64.toNat
  last : request.lastIndex ∈ availableIndices.map UInt64.toNat ∧
    ∀ i ∈ availableIndices, i.toNat ≤ request.lastIndex
  injective : ∀ others : List UInt64, others.Pairwise (· < ·) →
    buildSyncRequest others = some request → others = availableIndices

theorem pairwise_toNat {availableIndices : List UInt64}
    (h : availableIndices.Pairwise (· < ·)) :
    (availableIndices.map UInt64.toNat).Pairwise (· < ·) := by
  rw [List.pairwise_map]
  exact h.imp UInt64.lt_iff_toNat_lt.mp

/-- The last index of an ascending list is its greatest one. -/
theorem le_getLast {indices : List ℕ} (h : indices.Pairwise (· < ·)) {last : ℕ}
    (hlast : indices.getLast? = some last) : ∀ i ∈ indices, i ≤ last := by
  obtain ⟨init, rfl⟩ := List.getLast?_eq_some_iff.mp hlast
  intro i hi
  rcases List.mem_append.mp hi with hinit | hsingle
  · exact ((List.pairwise_append.mp h).2.2 i hinit last List.mem_cons_self).le
  · exact (List.mem_singleton.mp hsingle).le

/-- A request that is built expands to the list. -/
theorem expand_of_buildSyncRequest {availableIndices : List UInt64}
    (hascending : availableIndices.Pairwise (· < ·)) {request : SyncRequest}
    (h : buildSyncRequest availableIndices = some request) :
    expand request.missingIndices = availableIndices.map UInt64.toNat := by
  have hne : availableIndices ≠ [] := by
    rintro rfl
    cases h
  have hlength : availableIndices.length ≤ INT_MAX := by
    by_contra hlong
    rw [buildSyncRequest_of_long (by omega)] at h
    cases h
  rw [buildSyncRequest_eq hne hlength hascending, Option.some.injEq] at h
  subst h
  have hmap : availableIndices.map UInt64.toNat ≠ [] := by simpa using hne
  exact (encode_spec (List.getLast?_eq_getLast_of_ne_nil hmap)).1

theorem exact_of_ascending {availableIndices : List UInt64} (hne : availableIndices ≠ [])
    (hascending : availableIndices.Pairwise (· < ·)) :
    Exact availableIndices (encode (availableIndices.map UInt64.toNat)) := by
  have hmap : availableIndices.map UInt64.toNat ≠ [] := by simpa using hne
  have hpairwise := pairwise_toNat hascending
  have hlast := List.getLast?_eq_getLast_of_ne_nil hmap
  obtain ⟨hexpand, hnonempty, hlastIndex⟩ := encode_spec hlast
  refine ⟨hnonempty, ?_, ?_, hexpand, ?_, ?_⟩
  · cases availableIndices with
    | nil => exact absurd rfl hne
    | cons first rest => exact subarrays_apart _ (Nat.le_refl _) hpairwise
  · intro i
    rw [← mem_expand, hexpand]
  · rw [hlastIndex]
    refine ⟨List.getLast_mem hmap, ?_⟩
    intro i hi
    exact le_getLast hpairwise hlast _ (List.mem_map_of_mem hi)
  · intro others hothers hbuilt
    have hexpand' := expand_of_buildSyncRequest hothers hbuilt
    rw [hexpand] at hexpand'
    exact List.map_injective_iff.mpr (fun _ _ => UInt64.toNat.inj) hexpand'.symm

/-- The request is exact if and only if the positions in the list are `int`s. -/
theorem buildSyncRequest_exact_iff {availableIndices : List UInt64}
    (hne : availableIndices ≠ []) (hascending : availableIndices.Pairwise (· < ·)) :
    (∃ request, buildSyncRequest availableIndices = some request ∧
      Exact availableIndices request) ↔ availableIndices.length < 2 ^ 31 := by
  constructor
  · rintro ⟨request, hrequest, -⟩
    by_contra hlong
    rw [buildSyncRequest_of_long (by simp only [INT_MAX]; omega)] at hrequest
    cases hrequest
  · intro hlength
    refine ⟨_, buildSyncRequest_eq hne ?_ hascending, exact_of_ascending hne hascending⟩
    simp only [INT_MAX]
    omega

/-- Two indices at the end of the range, and one of its own. -/
theorem buildSyncRequest_exact_sample :
    ∃ request,
      buildSyncRequest [3, 18446744073709551614, 18446744073709551615] = some request ∧
        Exact [3, 18446744073709551614, 18446744073709551615] request :=
  (buildSyncRequest_exact_iff (by decide) (by decide)).mpr (by simp)

/-- The first `2 ^ 31 + 1` indices: the position overflows. -/
theorem buildSyncRequest_not_exact :
    let availableIndices := (List.range (2 ^ 31 + 1)).map UInt64.ofNat
    availableIndices ≠ [] ∧ availableIndices.Pairwise (· < ·) ∧
      ¬ ∃ request, buildSyncRequest availableIndices = some request ∧
        Exact availableIndices request := by
  intro availableIndices
  have hlength : availableIndices.length = 2 ^ 31 + 1 := by simp [availableIndices]
  refine ⟨?_, ?_, ?_⟩
  · intro hnil
    rw [hnil] at hlength
    cases hlength
  · rw [List.pairwise_map]
    refine List.pairwise_lt_range.imp_of_mem ?_
    intro i j hi hj hlt
    rw [List.mem_range] at hi hj
    rw [UInt64.lt_iff_toNat_lt, UInt64.toNat_ofNat_of_lt', UInt64.toNat_ofNat_of_lt']
    · exact hlt
    · simp only [UInt64.size]
      omega
    · simp only [UInt64.size]
      omega
  · have hlong : INT_MAX < availableIndices.length := by
      unfold INT_MAX
      omega
    rintro ⟨request, hrequest, -⟩
    rw [buildSyncRequest_of_long hlong] at hrequest
    cases hrequest

end UniversalDB.LogSyncer
