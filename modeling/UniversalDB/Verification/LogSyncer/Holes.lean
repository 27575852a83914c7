import UniversalDB.Verification.LogSyncer

/-! # The encoding of holes -/

namespace UniversalDB.LogSyncer

variable {κ : Type}

/-- The runs of a list of indices behind the first one: `prev` is the index before,
`curStart` and `curEnd` are the ends of the current run. -/
def subarrays (curStart curEnd prev : ℕ) : List ℕ → List IndexSubArray
  | [] => [⟨curStart, curEnd⟩]
  | index :: rest =>
      if prev + 1 = index then
        subarrays curStart (curEnd + 1) index rest
      else
        ⟨curStart, curEnd⟩ :: subarrays index index index rest

/-- The request that names the indices of a list, which is not empty. -/
def encode (availableIndices : List ℕ) : SyncRequest :=
  match availableIndices with
  | [] => ⟨[], 0⟩
  | first :: rest =>
      ⟨subarrays first first first rest, (first :: rest).getLast (List.cons_ne_nil _ _)⟩

/-- The indices that a list of subarrays stands for. -/
def expand (subarrays : List IndexSubArray) : List ℕ :=
  subarrays.flatMap fun s => List.range' s.start (s.end + 1 - s.start)

@[simp] theorem expand_cons (s : IndexSubArray) (rest : List IndexSubArray) :
    expand (s :: rest) = List.range' s.start (s.end + 1 - s.start) ++ expand rest := rfl

@[simp] theorem expand_nil : expand [] = [] := rfl

/-- The subarrays behind `curStart` stand for the current one and the remaining
indices, whatever these are. -/
theorem expand_subarrays (rest : List ℕ) :
    ∀ {curStart curEnd : ℕ}, curStart ≤ curEnd →
      expand (subarrays curStart curEnd curEnd rest) =
        List.range' curStart (curEnd + 1 - curStart) ++ rest := by
  induction rest with
  | nil =>
      intro curStart curEnd _
      simp [subarrays]
  | cons index rest ih =>
      intro curStart curEnd hle
      by_cases hnext : curEnd + 1 = index
      · subst index
        have hlen : curEnd + 1 + 1 - curStart = curEnd + 1 - curStart + 1 := by omega
        have hlast : curStart + (curEnd + 1 - curStart) = curEnd + 1 := by omega
        rw [subarrays, if_pos rfl, ih (by omega), hlen, List.range'_concat, Nat.one_mul, hlast,
          List.append_assoc]
        rfl
      · rw [subarrays, if_neg hnext, expand_cons, ih (Nat.le_refl index)]
        simp

theorem subarrays_nonempty (rest : List ℕ) :
    ∀ {curStart curEnd prev : ℕ}, curStart ≤ curEnd →
      ∀ s ∈ subarrays curStart curEnd prev rest, s.start ≤ s.end := by
  induction rest with
  | nil =>
      intro curStart curEnd prev hle s hs
      cases List.mem_singleton.mp hs
      exact hle
  | cons index rest ih =>
      intro curStart curEnd prev hle s hs
      rw [subarrays] at hs
      split at hs
      · exact ih (by omega) s hs
      · rcases List.mem_cons.mp hs with rfl | hs
        · exact hle
        · exact ih (Nat.le_refl index) s hs

/-- The request names all available indices, in their order, and the last of them. -/
theorem encode_spec {availableIndices : List ℕ} {last : ℕ}
    (hlast : availableIndices.getLast? = some last) :
    expand (encode availableIndices).missingIndices = availableIndices ∧
      (∀ s ∈ (encode availableIndices).missingIndices, s.start ≤ s.end) ∧
      (encode availableIndices).lastIndex = last := by
  cases availableIndices with
  | nil => cases hlast
  | cons first rest =>
      refine ⟨?_, subarrays_nonempty rest (Nat.le_refl first), ?_⟩
      · simp only [encode]
        rw [expand_subarrays rest (Nat.le_refl first)]
        simp
      · rw [List.getLast?_eq_getLast_of_ne_nil (List.cons_ne_nil _ _)] at hlast
        exact Option.some.inj hlast

/-! ## Reading a request -/

/-- What is sent for an index below the first gap of the sender. -/
def sentFor (paxosLog : PaxosLog κ) (curLastIndex i : ℕ) : Option PaxosLogEntryWithIndex :=
  if i < curLastIndex then
    (paxosLog.getEntry i).map fun entry => ⟨UInt32.ofNat i, entry⟩
  else none

variable {paxosLog : PaxosLog κ} {curLastIndex : ℕ}

theorem filterMap_sentFor_of_le {indices : List ℕ} (h : ∀ i ∈ indices, curLastIndex ≤ i) :
    indices.filterMap (sentFor paxosLog curLastIndex) = [] := by
  rw [List.filterMap_eq_nil_iff]
  intro i hi
  rw [sentFor, if_neg (Nat.not_lt.mpr (h i hi))]

/-- Clipping at the first gap, which is inclusive, loses and adds nothing: the first gap
holds no entry. -/
theorem entriesBetween_clip (hgap : paxosLog.log curLastIndex = none) {start stop : ℕ}
    (hstart : start ≤ curLastIndex) (hle : start ≤ stop) :
    entriesBetween paxosLog start (min curLastIndex stop) =
      (List.range' start (stop + 1 - start)).filterMap (sentFor paxosLog curLastIndex) := by
  have hclip : ∀ last ≤ curLastIndex, entriesBetween paxosLog start last =
      (List.range' start (last + 1 - start)).filterMap (sentFor paxosLog curLastIndex) := by
    intro last hlast
    apply List.filterMap_congr
    intro i hi
    rw [List.mem_range'_1] at hi
    rw [sentFor]
    split
    · rfl
    · obtain rfl : i = curLastIndex := by omega
      simp [PaxosLog.getEntry, hgap]
  rcases Nat.le_total stop curLastIndex with hstop | hstop
  · rw [Nat.min_eq_right hstop]
    exact hclip stop hstop
  · have hsplit := List.range'_append_1 (s := start) (m := curLastIndex + 1 - start)
      (n := stop - curLastIndex)
    have hmid : start + (curLastIndex + 1 - start) = curLastIndex + 1 := by omega
    have hlen : curLastIndex + 1 - start + (stop - curLastIndex) = stop + 1 - start := by omega
    rw [hmid, hlen] at hsplit
    have hbeyond : (List.range' (curLastIndex + 1) (stop - curLastIndex)).filterMap
        (sentFor paxosLog curLastIndex) = [] := by
      apply filterMap_sentFor_of_le
      intro i hi
      rw [List.mem_range'_1] at hi
      omega
    rw [Nat.min_eq_left hstop, hclip curLastIndex (Nat.le_refl _), ← hsplit,
      List.filterMap_append, hbeyond, List.append_nil]

/-- The loop over the subarrays sends what the indices they stand for call for. The
subarrays behind the break are behind the first gap, as the indices are ascending. -/
theorem missingEntries_eq (hgap : paxosLog.log curLastIndex = none)
    {subarrays : List IndexSubArray} (hnonempty : ∀ s ∈ subarrays, s.start ≤ s.end)
    (hascending : (expand subarrays).Pairwise (· < ·)) :
    missingEntries paxosLog curLastIndex subarrays =
      (expand subarrays).filterMap (sentFor paxosLog curLastIndex) := by
  induction subarrays with
  | nil => rfl
  | cons s rest ih =>
      have hle := hnonempty s List.mem_cons_self
      rw [missingEntries]
      split
      · rename_i hbreak
        symm
        apply filterMap_sentFor_of_le
        have hhead : expand (s :: rest) =
            s.start :: (List.range' (s.start + 1) (s.end - s.start) ++ expand rest) := by
          have hlen : s.end + 1 - s.start = s.end - s.start + 1 := by omega
          rw [expand_cons, hlen, List.range'_succ]
          rfl
        rw [hhead, List.pairwise_cons] at hascending
        intro i hi
        rw [hhead, List.mem_cons] at hi
        rcases hi with rfl | hi
        · exact hbreak
        · have hlt := hascending.1 i hi
          omega
      · rename_i hstart
        rw [expand_cons, List.pairwise_append] at hascending
        rw [expand_cons, List.filterMap_append,
          entriesBetween_clip hgap (by omega) hle,
          ih (fun s' hs' => hnonempty s' (List.mem_cons_of_mem _ hs')) hascending.2.1]

end UniversalDB.LogSyncer
