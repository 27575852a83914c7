import Mathlib.Order.MinMax
import UniversalDB.Verification.KVStore.Search

/-! # What a store keeps and returns -/

namespace UniversalDB

namespace MultiVersionEntry

@[simp] theorem push_versions (entry : MultiVersionEntry) (value : String) (timestamp : ℕ)
    (h : entry.lat < timestamp) :
    (entry.push value timestamp h).versions = entry.versions ++ [⟨timestamp, value⟩] := rfl

@[simp] theorem push_lat (entry : MultiVersionEntry) (value : String) (timestamp : ℕ)
    (h : entry.lat < timestamp) : (entry.push value timestamp h).lat = timestamp := rfl

@[simp] theorem access_versions (entry : MultiVersionEntry) (timestamp : ℕ) :
    (entry.access timestamp).versions = entry.versions := by
  unfold access
  split <;> rfl

@[simp] theorem access_lat (entry : MultiVersionEntry) (timestamp : ℕ) :
    (entry.access timestamp).lat = max entry.lat timestamp := by
  unfold access
  split
  · rename_i h
    exact (max_eq_right h.le).symm
  · rename_i h
    exact (max_eq_left (not_lt.mp h)).symm

theorem access_eq_self {entry : MultiVersionEntry} {timestamp : ℕ}
    (h : timestamp ≤ entry.lat) : entry.access timestamp = entry := by
  rw [access, dif_neg (by omega)]

end MultiVersionEntry

namespace KVStore

open MultiVersionEntry

/-! ## Reads -/

theorem lookup_of_none {store : KVStore} {key : String} (h : store.mvkvs key = none)
    (timestamp : ℕ) : store.lookup key timestamp = (none, store) := by
  simp only [lookup, h]

theorem lookup_of_some {store : KVStore} {key : String} {entry : MultiVersionEntry}
    (h : store.mvkvs key = some entry) (timestamp : ℕ) :
    store.lookup key timestamp = (valueAt entry.versions timestamp,
      ⟨store.mvkvs.assign key (accessed entry timestamp)⟩) := by
  simp only [lookup, h]

/-- A read changes at most the last access timestamp of its key. -/
theorem lookup_mvkvs (store : KVStore) (key : String) (timestamp : ℕ) (key' : String) :
    (store.lookup key timestamp).2.mvkvs key' =
      if key' = key then (store.mvkvs key).map fun entry => accessed entry timestamp
      else store.mvkvs key' := by
  cases h : store.mvkvs key with
  | none =>
      rw [lookup_of_none h]
      split
      · rename_i heq
        rw [heq, h]
        rfl
      · rfl
  | some entry =>
      rw [lookup_of_some h]
      exact KeyMap.assign_apply _ _ _ _

@[simp] theorem accessed_versions (entry : MultiVersionEntry) (timestamp : ℕ) :
    (accessed entry timestamp).versions = entry.versions := by
  unfold accessed
  split
  · exact access_versions entry timestamp
  · rfl

@[simp] theorem lookup_versions (store : KVStore) (key : String) (timestamp : ℕ)
    (key' : String) : (store.lookup key timestamp).2.versions key' = store.versions key' := by
  rw [versions, lookup_mvkvs]
  split
  · rename_i heq
    subst key'
    cases h : store.mvkvs key with
    | none => rw [versions_of_none h]; rfl
    | some entry =>
        rw [versions_of_some h]
        exact accessed_versions entry timestamp
  · rfl

theorem accessed_eq_self {entry : MultiVersionEntry} {timestamp : ℕ}
    (h : timestamp ≤ entry.lat) : accessed entry timestamp = entry := by
  unfold accessed
  split
  · exact access_eq_self h
  · rfl

theorem valueAt_eq_none {versions : List VersionEntry} {timestamp : ℕ} :
    valueAt versions timestamp = none ↔ ∀ v ∈ versions, timestamp < v.timestamp := by
  rw [valueAt, Option.map_eq_none_iff, Timeline.latest_eq_none]

theorem accessed_eq_self_of_lt {entry : MultiVersionEntry} {timestamp : ℕ}
    (h : ∀ v ∈ entry.versions, timestamp < v.timestamp) :
    accessed entry timestamp = entry := by
  rw [accessed, valueAt_eq_none.mpr h]
  rfl

/-! ## Writes -/

theorem write_cases {store store' : KVStore} {key value : String} {timestamp : ℕ}
    (h : store.write key value timestamp = .ok store') :
    (store.mvkvs key = none ∧ store'.mvkvs = store.mvkvs.assign key (first value timestamp)) ∨
      ∃ entry, ∃ hlat : entry.lat < timestamp, store.mvkvs key = some entry ∧
        store'.mvkvs = store.mvkvs.assign key (entry.push value timestamp hlat) := by
  cases hkey : store.mvkvs key with
  | none =>
      simp only [write, hkey, Except.ok.injEq] at h
      subst h
      refine .inl ⟨rfl, ?_⟩
      funext key'
      simp only [KeyMap.insert_apply, KeyMap.assign_apply, hkey, Option.getD_none]
  | some entry =>
      simp only [write, hkey] at h
      split at h
      · rename_i hlat
        cases h
        exact .inr ⟨entry, hlat, rfl, rfl⟩
      · cases h

theorem write_error {store : KVStore} {key value : String} {timestamp : ℕ}
    {exception : UniversalException}
    (h : store.write key value timestamp = .error exception) :
    exception = ⟨"Should never be writing to the past."⟩ := by
  simp only [write] at h
  split at h
  · cases h
  · split at h
    · cases h
    · cases h
      rfl

theorem write_ok_of_readLat {store : KVStore} {key : String} (value : String) {timestamp : ℕ}
    (h : ∀ lat, store.readLat key = some lat → lat < timestamp) :
    ∃ store', store.write key value timestamp = .ok store' := by
  cases hkey : store.mvkvs key with
  | none =>
      simp only [write, hkey]
      exact ⟨_, rfl⟩
  | some entry =>
      have hlat := h entry.lat (by rw [readLat, hkey]; rfl)
      simp only [write, hkey, dif_pos hlat]
      exact ⟨_, rfl⟩

/-- A write appends a version to its key. -/
theorem write_versions {store store' : KVStore} {key value : String} {timestamp : ℕ}
    (h : store.write key value timestamp = .ok store') (key' : String) :
    store'.versions key' = if key' = key then store.versions key ++ [⟨timestamp, value⟩]
      else store.versions key' := by
  rcases write_cases h with ⟨hkey, hstore⟩ | ⟨entry, hlat, hkey, hstore⟩
  · rw [versions, hstore, KeyMap.assign_apply]
    split
    · rw [versions_of_none hkey]
      rfl
    · rfl
  · rw [versions, hstore, KeyMap.assign_apply]
    split
    · rw [versions_of_some hkey]
      rfl
    · rfl

/-! ## Snapshot reads -/

/-- The key has been accessed at the timestamp or later. -/
def Sealed (store : KVStore) (key : String) (timestamp : ℕ) : Prop :=
  ∃ lat ∈ store.readLat key, timestamp ≤ lat

instance (store : KVStore) (key : String) (timestamp : ℕ) :
    Decidable (store.Sealed key timestamp) :=
  match h : store.readLat key with
  | none => .isFalse (by simp [Sealed, h])
  | some lat => decidable_of_iff (timestamp ≤ lat) (by simp [Sealed, h])

theorem sealed_of_some {store : KVStore} {key : String} {entry : MultiVersionEntry}
    (h : store.mvkvs key = some entry) {timestamp : ℕ} :
    store.Sealed key timestamp ↔ timestamp ≤ entry.lat := by
  simp [Sealed, readLat, h]

theorem Sealed.exists_entry {store : KVStore} {key : String} {timestamp : ℕ}
    (h : store.Sealed key timestamp) :
    ∃ entry, store.mvkvs key = some entry ∧ timestamp ≤ entry.lat := by
  cases hkey : store.mvkvs key with
  | none =>
      obtain ⟨lat, hlat, -⟩ := h
      rw [readLat, hkey] at hlat
      cases hlat
  | some entry => exact ⟨entry, rfl, (sealed_of_some hkey).mp h⟩

/-- A read seals a key that exists: if it finds no version, the last access timestamp is
beyond its own already. -/
theorem lookup_sealed {store : KVStore} {key : String} (h : store.versions key ≠ [])
    (timestamp : ℕ) : (store.lookup key timestamp).2.Sealed key timestamp := by
  cases hkey : store.mvkvs key with
  | none => exact absurd (versions_of_none hkey) h
  | some entry =>
      have hread : (store.lookup key timestamp).2.mvkvs key =
          some (accessed entry timestamp) := by
        rw [lookup_mvkvs, if_pos rfl, hkey]
        rfl
      rw [sealed_of_some hread, accessed]
      split
      · rw [access_lat]
        exact le_max_right _ _
      · rename_i hnone
        rw [Bool.not_eq_true, Option.isSome_eq_false_iff, Option.isNone_iff_eq_none,
          valueAt_eq_none] at hnone
        obtain ⟨v, hv⟩ := List.exists_mem_of_ne_nil _ entry.versions_ne_nil
        exact (hnone v hv).le.trans (entry.le_lat v hv)

theorem Sealed.lookup {store : KVStore} {key : String} {timestamp : ℕ}
    (h : store.Sealed key timestamp) (key' : String) (timestamp' : ℕ) :
    (store.lookup key' timestamp').2.Sealed key timestamp := by
  obtain ⟨entry, hkey, hlat⟩ := h.exists_entry
  by_cases heq : key = key'
  · subst heq
    have hread : (store.lookup key timestamp').2.mvkvs key =
        some (accessed entry timestamp') := by
      rw [lookup_mvkvs, if_pos rfl, hkey]
      rfl
    rw [sealed_of_some hread, accessed]
    split
    · rw [access_lat]
      exact le_max_of_le_left hlat
    · exact hlat
  · have hread : (store.lookup key' timestamp').2.mvkvs key = some entry := by
      rw [lookup_mvkvs, if_neg heq, hkey]
    exact (sealed_of_some hread).mpr hlat

/-- A write comes after what is sealed: it keeps the seal, and the versions at or below a
sealed timestamp. -/
theorem Sealed.write {store store' : KVStore} {key : String} {timestamp : ℕ}
    (h : store.Sealed key timestamp) {key' value : String} {timestamp' : ℕ}
    (hwrite : store.write key' value timestamp' = .ok store') :
    store'.Sealed key timestamp ∧
      upTo (store'.versions key) timestamp = upTo (store.versions key) timestamp := by
  obtain ⟨entry, hkey, hlat⟩ := h.exists_entry
  by_cases heq : key = key'
  · subst heq
    rcases write_cases hwrite with ⟨hnone, -⟩ | ⟨entry', hlt, hsome, hstore⟩
    · rw [hkey] at hnone
      cases hnone
    · rw [hkey] at hsome
      cases hsome
      have hkey' : store'.mvkvs key = some (entry.push value timestamp' hlt) := by
        rw [hstore, KeyMap.assign_apply, if_pos rfl]
      refine ⟨(sealed_of_some hkey').mpr ?_, ?_⟩
      · rw [push_lat]
        omega
      · rw [versions_of_some hkey', versions_of_some hkey, push_versions]
        exact Timeline.filter_concat_of_lt _ (hlat.trans_lt hlt)
  · have hkey' : store'.mvkvs key = some entry := by
      rcases write_cases hwrite with ⟨-, hstore⟩ | ⟨entry', hlt, -, hstore⟩ <;>
        rw [hstore, KeyMap.assign_apply, if_neg heq, hkey]
    refine ⟨(sealed_of_some hkey').mpr hlat, ?_⟩
    rw [versions_of_some hkey', versions_of_some hkey]

/-! ## Stores with the same versions -/

/-- The same versions, and a last access timestamp that is not behind. -/
structure EntryAhead (entry entry' : MultiVersionEntry) : Prop where
  versions : entry'.versions = entry.versions
  lat : entry.lat ≤ entry'.lat

/-- `store'` has the versions of `store` and may have seen more reads. -/
def Ahead (store store' : KVStore) : Prop :=
  ∀ key, Option.Rel EntryAhead (store.mvkvs key) (store'.mvkvs key)

theorem Ahead.refl (store : KVStore) : Ahead store store := by
  intro key
  cases store.mvkvs key with
  | none => exact .none
  | some entry => exact .some ⟨rfl, le_rfl⟩

theorem Ahead.cases {store store' : KVStore} (h : Ahead store store') (key : String) :
    (store.mvkvs key = none ∧ store'.mvkvs key = none) ∨
      ∃ entry entry', store.mvkvs key = some entry ∧ store'.mvkvs key = some entry' ∧
        EntryAhead entry entry' := by
  have hkey := h key
  cases hstore : store.mvkvs key <;> cases hstore' : store'.mvkvs key <;>
    rw [hstore, hstore'] at hkey
  · exact .inl ⟨rfl, rfl⟩
  · cases hkey
  · cases hkey
  · cases hkey with
    | some hentry => exact .inr ⟨_, _, rfl, rfl, hentry⟩

theorem Ahead.versions {store store' : KVStore} (h : Ahead store store') (key : String) :
    store'.versions key = store.versions key := by
  rcases h.cases key with ⟨hnone, hnone'⟩ | ⟨entry, entry', hsome, hsome', hentry⟩
  · rw [versions_of_none hnone, versions_of_none hnone']
  · rw [versions_of_some hsome, versions_of_some hsome', hentry.versions]

theorem Ahead.readLat {store store' : KVStore} (h : Ahead store store') {key : String}
    {lat : ℕ} (hlat : store.readLat key = some lat) :
    ∃ lat', store'.readLat key = some lat' ∧ lat ≤ lat' := by
  rcases h.cases key with ⟨hnone, hnone'⟩ | ⟨entry, entry', hsome, hsome', hentry⟩
  · simp [KVStore.readLat, hnone] at hlat
  · simp only [KVStore.readLat, hsome, hsome', Option.map_some, Option.some.injEq] at hlat ⊢
    subst hlat
    exact ⟨_, rfl, hentry.lat⟩

theorem EntryAhead.accessed_both {entry entry' : MultiVersionEntry}
    (h : EntryAhead entry entry') (timestamp : ℕ) :
    EntryAhead (accessed entry timestamp) (accessed entry' timestamp) := by
  have hlat := h.lat
  constructor
  · simp [h.versions]
  · unfold accessed
    rw [h.versions]
    split
    · rw [access_lat, access_lat]
      exact max_le_max_right timestamp hlat
    · exact hlat

theorem EntryAhead.accessed_right {entry entry' : MultiVersionEntry}
    (h : EntryAhead entry entry') (timestamp : ℕ) :
    EntryAhead entry (accessed entry' timestamp) := by
  have hlat := h.lat
  constructor
  · simp [h.versions]
  · unfold accessed
    split
    · rw [access_lat]
      exact le_max_of_le_left hlat
    · exact hlat

theorem Ahead.lookup {store store' : KVStore} (h : Ahead store store') (key : String)
    (timestamp : ℕ) : Ahead (store.lookup key timestamp).2 (store'.lookup key timestamp).2 := by
  intro key'
  rw [lookup_mvkvs, lookup_mvkvs]
  split
  · rcases h.cases key with ⟨hnone, hnone'⟩ | ⟨entry, entry', hsome, hsome', hentry⟩
    · rw [hnone, hnone']
      exact .none
    · rw [hsome, hsome']
      exact .some (hentry.accessed_both timestamp)
  · exact h key'

theorem Ahead.lookup_right {store store' : KVStore} (h : Ahead store store') (key : String)
    (timestamp : ℕ) : Ahead store (store'.lookup key timestamp).2 := by
  intro key'
  rw [lookup_mvkvs]
  split
  · rename_i heq
    subst key'
    rcases h.cases key with ⟨hnone, hnone'⟩ | ⟨entry, entry', hsome, hsome', hentry⟩
    · rw [hnone, hnone']
      exact .none
    · rw [hsome, hsome']
      exact .some (hentry.accessed_right timestamp)
  · exact h key'

theorem Ahead.write {store store' store₁ store₁' : KVStore} (h : Ahead store store')
    {key value : String} {timestamp : ℕ}
    (hwrite : store.write key value timestamp = .ok store₁)
    (hwrite' : store'.write key value timestamp = .ok store₁') : Ahead store₁ store₁' := by
  intro key'
  rcases write_cases hwrite with ⟨hnone, hstore⟩ | ⟨entry, hlat, hsome, hstore⟩ <;>
    rcases write_cases hwrite' with ⟨hnone', hstore'⟩ | ⟨entry', hlat', hsome', hstore'⟩ <;>
    rw [hstore, hstore', KeyMap.assign_apply, KeyMap.assign_apply]
  · split
    · exact .some ⟨rfl, le_rfl⟩
    · exact h key'
  · have hkey := h key
    rw [hnone, hsome'] at hkey
    cases hkey
  · have hkey := h key
    rw [hsome, hnone'] at hkey
    cases hkey
  · split
    · have hkey := h key
      rw [hsome, hsome'] at hkey
      cases hkey with
      | some hentry =>
          refine .some ⟨?_, le_rfl⟩
          simp [hentry.versions]
    · exact h key'

end KVStore

end UniversalDB
