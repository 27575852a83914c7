import Mathlib.Data.List.Nodup
import Mathlib.Data.List.Range
import UniversalDB.Model.PaxosLog

/-! # The representation invariant of a log -/

namespace UniversalDB.PaxosLog

variable {κ : Type}

/-- The available indices of a log whose last one is `last`: they are strictly ascending
and consist of the indices up to `last` without an entry, and `last` follows the greatest
index with one. -/
structure Available (l : PaxosLog κ) (last : ℕ) : Prop where
  getLast : l.availableIndices.getLast? = some last
  ascending : l.availableIndices.Pairwise (· < ·)
  mem_iff : ∀ i, i ∈ l.availableIndices ↔ i ≤ last ∧ l.log i = none
  unset : ∀ i, last ≤ i → l.log i = none
  populated : ∀ i, last = i + 1 → (l.log i).isSome

def WellFormed (l : PaxosLog κ) : Prop := ∃ last, l.Available last

theorem new_wellFormed : (new : PaxosLog κ).WellFormed := by
  refine ⟨0, ?_, ?_, ?_, ?_, ?_⟩ <;> simp [new]

theorem WellFormed.addCallback {l : PaxosLog κ} (h : l.WellFormed)
    (contentCase : EntryContentCase) (callback : κ) :
    (l.addCallback contentCase callback).WellFormed := by
  obtain ⟨last, h⟩ := h
  exact ⟨last, h.getLast, h.ascending, h.mem_iff, h.unset, h.populated⟩

/-! ## The next available index -/

theorem Available.exists_cons {l : PaxosLog κ} {last : ℕ} (h : l.Available last) :
    ∃ first rest, l.availableIndices = first :: rest := by
  cases havail : l.availableIndices with
  | nil =>
      have hlast := h.getLast
      simp [havail] at hlast
  | cons first rest => exact ⟨first, rest, rfl⟩

/-- The front of the available indices is the first gap of the log, so neither assertion
of `nextAvailableIndex` fails. -/
theorem WellFormed.nextAvailableIndex {l : PaxosLog κ} (h : l.WellFormed) :
    ∃ m, l.nextAvailableIndex = .ok m ∧ l.log.FirstGap m := by
  obtain ⟨last, h⟩ := h
  obtain ⟨first, rest, havail⟩ := h.exists_cons
  have hascending := h.ascending
  rw [havail, List.pairwise_cons] at hascending
  have hfirst : first ≤ last ∧ l.log first = none := by
    apply (h.mem_iff first).mp
    simp [havail]
  refine ⟨first, ?_, hfirst.2, ?_⟩
  · simp only [PaxosLog.nextAvailableIndex, havail, hfirst.2, universalAssert]
    rfl
  · intro i hi
    by_contra hnone
    have hmem : i ∈ l.availableIndices := by
      apply (h.mem_iff i).mpr
      refine ⟨by omega, ?_⟩
      simpa using hnone
    rw [havail, List.mem_cons] at hmem
    rcases hmem with heq | hrest
    · omega
    · have hlt := hascending.1 i hrest
      omega

theorem WellFormed.nextAvailableIndex_eq {l : PaxosLog κ} (h : l.WellFormed) {m : ℕ} :
    l.nextAvailableIndex = .ok m ↔ l.log.FirstGap m := by
  obtain ⟨m', hm', hgap⟩ := h.nextAvailableIndex
  constructor
  · intro hm
    rw [hm'] at hm
    cases hm
    exact hgap
  · intro hm
    rw [hm', hm.unique hgap]

/-! ## Setting an entry -/

theorem Available.init_lt {l : PaxosLog κ} {last : ℕ} (h : l.Available last)
    {init : List ℕ} (hinit : l.availableIndices = init ++ [last]) : ∀ i ∈ init, i < last := by
  intro i hi
  have hascending := h.ascending
  rw [hinit, List.pairwise_append] at hascending
  exact hascending.2.2 i hi last (by simp)

theorem Available.mem_init {l : PaxosLog κ} {last : ℕ} (h : l.Available last)
    {init : List ℕ} (hinit : l.availableIndices = init ++ [last]) (i : ℕ) :
    i ∈ init ↔ i < last ∧ l.log i = none := by
  have hlt := h.init_lt hinit
  have hmem := h.mem_iff i
  rw [hinit, List.mem_append, List.mem_singleton] at hmem
  constructor
  · intro hi
    exact ⟨hlt i hi, (hmem.mp (.inl hi)).2⟩
  · rintro ⟨hi, hnone⟩
    rcases hmem.mpr ⟨by omega, hnone⟩ with hin | heq
    · exact hin
    · omega

/-- A hole in front of the last available index is filled. -/
theorem Available.fill {l l' : PaxosLog κ} {last : ℕ} (h : l.Available last) {index : ℕ}
    (hlt : index < last) {entry : PaxosLogEntry} (hlog : l'.log = l.log.insert index entry)
    (havail : l'.availableIndices = l.availableIndices.erase index) : l'.Available last := by
  obtain ⟨init, hinit⟩ := List.getLast?_eq_some_iff.mp h.getLast
  have hascending := h.ascending
  constructor
  · rw [havail, hinit]
    by_cases hmem : index ∈ init
    · simp [List.erase_append_left _ hmem]
    · have hne : index ≠ last := by omega
      have herase : (init ++ [last]).erase index = init ++ [last] := by
        apply List.erase_of_not_mem
        simp [hmem, hne]
      simp [herase]
  · rw [havail]
    exact hascending.sublist List.erase_sublist
  · intro i
    have hnodup : l.availableIndices.Nodup := hascending.imp Nat.ne_of_lt
    rw [havail, hnodup.mem_erase_iff, h.mem_iff, hlog, KeyMap.insert_apply]
    by_cases hi : i = index <;> simp [hi]
  · intro i hi
    rw [hlog, KeyMap.insert_of_ne _ _ (by omega)]
    exact h.unset i hi
  · intro i hi
    rw [hlog, KeyMap.insert_apply]
    split
    · rfl
    · exact h.populated i hi

/-- The log grows by an entry at or behind the last available index. -/
theorem Available.extend {l l' : PaxosLog κ} {last : ℕ} (h : l.Available last) {index : ℕ}
    (hle : last ≤ index) {entry : PaxosLogEntry} (hlog : l'.log = l.log.insert index entry)
    {init : List ℕ} (hinit : l.availableIndices = init ++ [last])
    (havail : l'.availableIndices =
      init ++ List.range' last (index - last) ++ [index + 1]) : l'.Available (index + 1) := by
  have hlt := h.init_lt hinit
  have hascending := h.ascending
  rw [hinit, List.pairwise_append] at hascending
  constructor
  · simp [havail]
  · rw [havail]
    simp only [List.pairwise_append, List.mem_append, List.mem_range'_1, List.mem_singleton]
    refine ⟨⟨hascending.1, List.pairwise_lt_range', ?_⟩, List.pairwise_singleton _ _, ?_⟩
    · intro i hi j hj
      have := hlt i hi
      omega
    · rintro i (hi | hi) j rfl
      · have := hlt i hi
        omega
      · omega
  · intro i
    have hunset := h.unset i
    rw [havail, hlog, KeyMap.insert_apply]
    simp only [List.mem_append, h.mem_init hinit, List.mem_range'_1, List.mem_singleton]
    by_cases hi : i = index
    · subst i
      simp
      omega
    · simp only [hi, if_false]
      constructor
      · rintro ((hold | hrange) | heq)
        · exact ⟨by omega, hold.2⟩
        · exact ⟨by omega, hunset (by omega)⟩
        · exact ⟨by omega, hunset (by omega)⟩
      · rintro ⟨hbound, hnone⟩
        by_cases hold : i < last
        · exact .inl (.inl ⟨hold, hnone⟩)
        · by_cases heq : i = index + 1
          · exact .inr heq
          · exact .inl (.inr (by omega))
  · intro i hi
    rw [hlog, KeyMap.insert_of_ne _ _ (by omega)]
    exact h.unset i (by omega)
  · intro i hi
    have heq : i = index := by omega
    subst i
    simp [hlog]

theorem Available.takeIndex {l l' : PaxosLog κ} {last : ℕ} (h : l.Available last)
    {index : ℕ} (hindex : index < 2 ^ 64 - 1) {entry : PaxosLogEntry}
    (hlog : l'.log = l.log.insert index entry)
    (havail : l'.availableIndices = takeIndex l.availableIndices last index) :
    l'.WellFormed := by
  obtain ⟨init, hinit⟩ := List.getLast?_eq_some_iff.mp h.getLast
  have hmod : (index + 1) % 2 ^ 64 = index + 1 := Nat.mod_eq_of_lt (by omega)
  rcases Nat.lt_trichotomy index last with hbefore | hat | hbehind
  · rw [PaxosLog.takeIndex, if_pos hbefore] at havail
    exact ⟨last, h.fill hbefore hlog havail⟩
  · subst index
    have hnot : last ∉ init := fun hmem => absurd (h.init_lt hinit last hmem) (by omega)
    have herase : (init ++ [last]).erase last = init := by
      rw [List.erase_append_right _ hnot]
      simp
    rw [PaxosLog.takeIndex, if_neg (by omega), if_pos rfl, hinit, herase, hmod] at havail
    exact ⟨last + 1, h.extend (Nat.le_refl last) hlog hinit (by simp [havail])⟩
  · rw [PaxosLog.takeIndex, if_neg (by omega), if_neg (by omega), hinit, hmod] at havail
    have hlen : index - last = index - (last + 1) + 1 := by omega
    refine ⟨index + 1, h.extend hbehind.le hlog hinit ?_⟩
    rw [havail, hlen, List.range'_succ]
    simp

/-- What `setEntry` does to a well-formed log: the log of the index is inserted, and the
callbacks are called for the indices that the first gap moves over. -/
structure SetEntry (l : PaxosLog κ) (index : ℕ) (entry : PaxosLogEntry) (l' : PaxosLog κ)
    (calls : List (Call κ)) : Prop where
  wellFormed : l'.WellFormed
  log : l'.log = l.log.insert index entry
  callbacks : l'.callbacks = l.callbacks
  calls : ∀ m m', l.log.FirstGap m → l'.log.FirstGap m' → calls = l'.callsBetween m m'

theorem WellFormed.setEntry {l : PaxosLog κ} (h : l.WellFormed) {index : ℕ}
    (hindex : index < 2 ^ 64 - 1) (entry : PaxosLogEntry) :
    ∃ l' calls, l.setEntry index entry = .ok (l', calls) ∧
      l.SetEntry index entry l' calls := by
  obtain ⟨last, hlast⟩ := h
  obtain ⟨m, hm, hgap⟩ := WellFormed.nextAvailableIndex ⟨last, hlast⟩
  by_cases hset : index ≤ last ∧ index ∉ l.availableIndices
  · refine ⟨l, [], ?_, ⟨last, hlast⟩, ?_, rfl, ?_⟩
    · simp only [PaxosLog.setEntry, hlast.getLast, hm, if_pos hset]
      rfl
    · have hsome : (l.log index).isSome := by
        by_contra hnone
        apply hset.2
        apply (hlast.mem_iff index).mpr
        exact ⟨hset.1, by simpa using hnone⟩
      exact (KeyMap.insert_eq_self hsome).symm
    · intro k k' hk hk'
      rw [hk.unique hk']
      simp [callsBetween]
  · let l' : PaxosLog κ :=
      { l with
        availableIndices := PaxosLog.takeIndex l.availableIndices last index
        log := l.log.insert index entry }
    have hwf : l'.WellFormed := hlast.takeIndex hindex rfl rfl
    obtain ⟨m', hm', hgap'⟩ := hwf.nextAvailableIndex
    refine ⟨l', l'.callsBetween m m', ?_, hwf, rfl, rfl, ?_⟩
    · have hm'' : PaxosLog.nextAvailableIndex
          { l with
            availableIndices := PaxosLog.takeIndex l.availableIndices last index
            log := l.log.insert index entry } = .ok m' := hm'
      simp only [PaxosLog.setEntry, hlast.getLast, hm, if_neg hset, hm'', bind, Except.bind]
      rfl
    · intro k k' hk hk'
      rw [hk.unique hgap, hk'.unique hgap']

end UniversalDB.PaxosLog
