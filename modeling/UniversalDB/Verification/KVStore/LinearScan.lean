import UniversalDB.Verification.KVStore.Histories

/-! # A read is a linear scan

As long as its versions can be counted by an `int`, a key is read by the binary search as by
a scan over all its versions. -/

namespace UniversalDB.KVStore

/-- The value of the last version at or before a timestamp, found by looking at every
version. -/
def linearScan (versions : List VersionEntry) (timestamp : ℕ) : Option String :=
  versions.foldl
    (fun found version => if version.timestamp ≤ timestamp then some version.value else found)
    none

theorem linearScan_eq (versions : List VersionEntry) (timestamp : ℕ) :
    linearScan versions timestamp = valueAt versions timestamp := by
  induction versions using List.reverseRec with
  | nil => rfl
  | append_singleton versions version ih =>
      by_cases hle : version.timestamp ≤ timestamp
      · simp [linearScan, valueAt, Timeline.latest, hle]
      · simp only [linearScan, valueAt, Timeline.latest] at ih ⊢
        simp [ih, hle]

/-- The latest version at or before a timestamp is the greatest one there. -/
theorem valueAt_eq_some {versions : List VersionEntry}
    (hascending : versions.Pairwise fun v w => v.timestamp < w.timestamp) {timestamp : ℕ}
    {value : String} :
    valueAt versions timestamp = some value ↔
      ∃ v ∈ versions, v.value = value ∧ v.timestamp ≤ timestamp ∧
        ∀ w ∈ versions, w.timestamp ≤ timestamp → w.timestamp ≤ v.timestamp := by
  constructor
  · intro h
    obtain ⟨v, hlatest, rfl⟩ := Option.map_eq_some_iff.mp h
    obtain ⟨init, hfilter⟩ := List.getLast?_eq_some_iff.mp hlatest
    have hkept := hascending.sublist (List.filter_sublist (p := fun x => x.timestamp ≤ timestamp))
    have hmem : v ∈ versions.filter fun x => x.timestamp ≤ timestamp := by
      rw [hfilter]
      exact List.mem_append_right _ List.mem_cons_self
    rw [List.mem_filter, decide_eq_true_eq] at hmem
    refine ⟨v, hmem.1, rfl, hmem.2, ?_⟩
    intro w hw hle
    have hwmem : w ∈ versions.filter fun x => x.timestamp ≤ timestamp :=
      List.mem_filter.mpr ⟨hw, decide_eq_true hle⟩
    rw [hfilter] at hkept hwmem
    rcases List.mem_append.mp hwmem with hinit | hlast
    · exact ((List.pairwise_append.mp hkept).2.2 w hinit v List.mem_cons_self).le
    · rw [List.mem_singleton.mp hlast]
  · rintro ⟨v, hv, rfl, hle, hgreatest⟩
    rw [valueAt, Timeline.latest_eq_some hascending hv hle]
    · rfl
    · intro w hw hlt
      by_contra hge
      have hle' := hgreatest w hw (by omega)
      omega

/-- A read does what a scan over the versions of its key does. -/
structure ReadsLinearly (store : KVStore) (key : String) (timestamp : ℕ) : Prop where
  ascending : (store.versions key).Pairwise fun v w => v.timestamp < w.timestamp
  lat : ∀ lat, store.readLat key = some lat → ∀ v ∈ store.versions key, v.timestamp ≤ lat
  /-- The binary search ends, and every access is in range. -/
  terminates : ∃ result, ∀ fuel, (store.versions key).length < fuel →
    store.readWithin fuel key timestamp = .ok result
  scan : store.readValue key timestamp = .ok (linearScan (store.versions key) timestamp)
  greatest : ∀ value, store.readValue key timestamp = .ok (some value) ↔
    ∃ v ∈ store.versions key, v.value = value ∧ v.timestamp ≤ timestamp ∧
      ∀ w ∈ store.versions key, w.timestamp ≤ timestamp → w.timestamp ≤ v.timestamp
  nothing : store.readValue key timestamp = .ok none ↔
    ∀ v ∈ store.versions key, timestamp < v.timestamp

theorem searchable_of_length {store : KVStore} {key : String}
    (h : (store.versions key).length < 2 ^ 31) (timestamp : ℕ) :
    store.Searchable key timestamp :=
  (List.length_filter_le _ _).trans_lt h

theorem readsLinearly_of_history {operations : List Operation}
    (h : ∀ key, ((after operations).versions key).length < 2 ^ 31) (key : String)
    (timestamp : ℕ) : ReadsLinearly (after operations) key timestamp := by
  have hsearchable := searchable_of_length (h key) timestamp
  have hvalue : ∀ value, (after operations).readValue key timestamp = .ok value ↔
      valueAt ((after operations).versions key) timestamp = value := by
    intro value
    rw [readValue_ok_iff]
    exact and_iff_right hsearchable
  constructor
  · exact versions_ascending _ key
  · intro lat hlat v hv
    cases hkey : (after operations).mvkvs key with
    | none => simp [readLat, hkey] at hlat
    | some entry =>
        rw [versions_of_some hkey] at hv
        simp only [readLat, hkey, Option.map_some, Option.some.injEq] at hlat
        subst hlat
        exact entry.le_lat v hv
  · exact ⟨_, fun fuel hfuel => readWithin_eq hsearchable hfuel⟩
  · rw [hvalue, linearScan_eq]
  · intro value
    rw [hvalue, valueAt_eq_some (versions_ascending _ key)]
  · rw [hvalue, valueAt_eq_none]

/-- A history is at least as long as the versions it leaves. -/
theorem versions_length_le (operations : List Operation) (key : String) :
    ((after operations).versions key).length ≤ operations.length := by
  induction operations using List.reverseRec with
  | nil => exact le_rfl
  | append_singleton operations operation ih =>
      rw [after_concat, List.length_append, List.length_singleton]
      cases operation with
      | write key' value timestamp =>
          simp only [apply]
          split
          · rename_i store hwrite
            rw [write_versions hwrite]
            split
            · rename_i heq
              subst heq
              rw [List.length_append, List.length_singleton]
              omega
            · omega
          · omega
      | read key' timestamp =>
          rw [apply_read_versions]
          omega

theorem readsLinearly_of_history_sample :
    ReadsLinearly
      (after [.write "k" "a" 5, .read "k" 7, .write "k" "b" 6, .write "k" "b" 9]) "k" 8 :=
  readsLinearly_of_history
    (fun key => (versions_length_le _ key).trans_lt (by decide)) "k" 8

end UniversalDB.KVStore
