import UniversalDB.Library.TransitionSystem
import UniversalDB.Verification.KVStore.Histories

/-! # Which writes a store admits

The last access timestamp of a key is the greatest timestamp of a write that was accepted
or a read that returned a value, and nothing else moves it. -/

namespace UniversalDB.KVStore

/-- An operation that counts as an access of a key. -/
inductive Accesses (store : KVStore) (key : String) : Operation → ℕ → Prop where
  | write {value : String} {timestamp : ℕ} {store' : KVStore}
      (hwrite : store.write key value timestamp = .ok store') :
      Accesses store key (.write key value timestamp) timestamp
  | read {value : String} {timestamp : ℕ}
      (hread : store.readValue key timestamp = .ok (some value)) :
      Accesses store key (.read key timestamp) timestamp

/-- A history has an access of the key at the timestamp. -/
def AccessedAt (operations : List Operation) (key : String) (timestamp : ℕ) : Prop :=
  ∃ before operation rest, operations = before ++ operation :: rest ∧
    Accesses (after before) key operation timestamp

theorem accessedAt_concat {operations : List Operation} {operation : Operation}
    {key : String} {timestamp : ℕ} :
    AccessedAt (operations ++ [operation]) key timestamp ↔
      AccessedAt operations key timestamp ∨
        Accesses (after operations) key operation timestamp := by
  constructor
  · rintro ⟨before, operation', rest, heq, haccess⟩
    rcases concat_eq_append_cons heq with ⟨rfl, rfl, -⟩ | ⟨tail, hsplit, -⟩
    · exact .inr haccess
    · exact .inl ⟨before, operation', tail, hsplit, haccess⟩
  · rintro (⟨before, operation', rest, rfl, haccess⟩ | haccess)
    · exact ⟨before, operation', rest ++ [operation], by simp, haccess⟩
    · exact ⟨operations, operation, [], rfl, haccess⟩

theorem Accesses.unique {store : KVStore} {key : String} {operation : Operation} {t t' : ℕ}
    (h : Accesses store key operation t) (h' : Accesses store key operation t') : t' = t := by
  cases h with
  | write hwrite =>
      cases h' with
      | write hwrite' => rfl
  | read hread =>
      cases h' with
      | read hread' => rfl

/-! ## The last access timestamp -/

theorem readLat_of_write {store store' : KVStore} {key value : String} {timestamp : ℕ}
    (h : store.write key value timestamp = .ok store') :
    store'.readLat key = some (max timestamp ((store.readLat key).getD 0)) := by
  rcases write_cases h with ⟨hkey, hstore⟩ | ⟨entry, hlat, hkey, hstore⟩
  · simp [readLat, hstore, hkey, MultiVersionEntry.first]
  · simp [readLat, hstore, hkey, max_eq_left hlat.le]

theorem readLat_of_read {store : KVStore} {key value : String} {timestamp : ℕ}
    (h : store.readValue key timestamp = .ok (some value)) :
    (store.apply (.read key timestamp)).readLat key =
      some (max timestamp ((store.readLat key).getD 0)) := by
  obtain ⟨hsearchable, hvalue⟩ := readValue_ok_iff.mp h
  simp only [apply, read_eq hsearchable]
  cases hkey : store.mvkvs key with
  | none =>
      rw [versions_of_none hkey] at hvalue
      cases hvalue
  | some entry =>
      rw [versions_of_some hkey] at hvalue
      simp only [readLat, lookup_mvkvs, if_true, hkey, Option.map_some, Option.getD_some,
        accessed, hvalue, Option.isSome_some, MultiVersionEntry.access_lat, max_comm]

theorem Accesses.readLat {store : KVStore} {key : String} {operation : Operation}
    {timestamp : ℕ} (h : Accesses store key operation timestamp) :
    (store.apply operation).readLat key =
      some (max timestamp ((store.readLat key).getD 0)) := by
  cases h with
  | write hwrite =>
      simp only [KVStore.apply, hwrite]
      exact readLat_of_write hwrite
  | read hread => exact readLat_of_read hread

/-- What is not an access of a key leaves its entry as it is. -/
theorem apply_of_not_accesses {store : KVStore} {key : String} {operation : Operation}
    (h : ∀ timestamp, ¬ Accesses store key operation timestamp) :
    (store.apply operation).mvkvs key = store.mvkvs key := by
  cases operation with
  | write key' value timestamp =>
      simp only [apply]
      split
      · rename_i store' hwrite
        have hne : key ≠ key' := by
          rintro rfl
          exact h timestamp (.write hwrite)
        rcases write_cases hwrite with ⟨-, hstore⟩ | ⟨entry, hlat, -, hstore⟩
        · rw [hstore, KeyMap.assign_of_ne _ _ hne]
        · rw [hstore, KeyMap.assign_of_ne _ _ hne]
      · rfl
  | read key' timestamp =>
      rcases apply_read_cases store key' timestamp with ⟨hsearchable, happly⟩ | ⟨-, happly⟩
      · rw [happly, lookup_mvkvs]
        split
        · rename_i heq
          subst heq
          cases hkey : store.mvkvs key with
          | none => rfl
          | some entry =>
              have hnone : valueAt entry.versions timestamp = none := by
                rw [Option.eq_none_iff_forall_ne_some]
                intro value hvalue
                rw [← versions_of_some hkey] at hvalue
                exact h timestamp (.read (readValue_ok_iff.mpr ⟨hsearchable, hvalue⟩))
              rw [Option.map_some, accessed, hnone]
              rfl
        · rfl
      · rw [happly]

theorem readLat_of_mvkvs {store store' : KVStore} {key : String}
    (h : store'.mvkvs key = store.mvkvs key) : store'.readLat key = store.readLat key := by
  rw [readLat, readLat, h]

/-- What the last access timestamp of a key says about the accesses. -/
def Bounds (accesses : Set ℕ) : Option ℕ → Prop
  | none => accesses = ∅
  | some lat => IsGreatest accesses lat

theorem bounds_readLat (operations : List Operation) (key : String) :
    Bounds {t | AccessedAt operations key t} ((after operations).readLat key) := by
  induction operations using List.reverseRec with
  | nil =>
      refine Set.eq_empty_of_forall_notMem ?_
      rintro t ⟨before, operation, rest, heq, -⟩
      simp at heq
  | append_singleton operations operation ih =>
      simp only [accessedAt_concat, after_concat]
      by_cases haccess : ∃ t, Accesses (after operations) key operation t
      · obtain ⟨t, ht⟩ := haccess
        have hset : {t' | AccessedAt operations key t' ∨
            Accesses (after operations) key operation t'} =
              insert t {t' | AccessedAt operations key t'} := by
          ext t'
          rw [Set.mem_ofPred_eq, Set.mem_insert_iff, Set.mem_ofPred_eq, or_comm]
          exact or_congr_left ⟨ht.unique, fun heq => heq ▸ ht⟩
        rw [hset, ht.readLat]
        cases hlat : (after operations).readLat key with
        | none =>
            rw [hlat] at ih
            rw [ih]
            simp [Bounds]
        | some lat =>
            rw [hlat] at ih
            exact ih.insert t
      · have hnot : ∀ t, ¬ Accesses (after operations) key operation t :=
          fun t ht => haccess ⟨t, ht⟩
        rw [readLat_of_mvkvs (apply_of_not_accesses hnot)]
        simpa only [hnot, or_false] using ih

/-! ## Admission -/

theorem readLat_eq_none {store : KVStore} {key : String} :
    store.readLat key = none ↔ store.versions key = [] := by
  cases hkey : store.mvkvs key with
  | none => simp [readLat, hkey, versions_of_none hkey]
  | some entry => simp [readLat, hkey, versions_of_some hkey, entry.versions_ne_nil]

theorem write_throws_iff {store : KVStore} {key value : String} {timestamp : ℕ} :
    (∃ exception, store.write key value timestamp = .error exception) ↔
      ∃ lat, store.readLat key = some lat ∧ timestamp ≤ lat := by
  cases hkey : store.mvkvs key with
  | none => simp [write, readLat, hkey]
  | some entry =>
      by_cases hlat : entry.lat < timestamp
      · simp [write, readLat, hkey, hlat]
      · simp [write, readLat, hkey, hlat, Nat.not_lt.mp hlat]

/-- What the calls do for a key is the same in both stores. -/
structure SameFor (key : String) (store store' : KVStore) : Prop where
  readLat : store'.readLat key = store.readLat key
  read : ∀ timestamp,
    ((store'.read key timestamp).map fun r => (r.1, r.2.mvkvs key)) =
      (store.read key timestamp).map fun r => (r.1, r.2.mvkvs key)
  write : ∀ value timestamp,
    ((store'.write key value timestamp).map fun s => s.mvkvs key) =
      (store.write key value timestamp).map fun s => s.mvkvs key

theorem sameFor_of_mvkvs {store store' : KVStore} {key : String}
    (h : store'.mvkvs key = store.mvkvs key) : SameFor key store store' := by
  have hversions : store'.versions key = store.versions key := by rw [versions, versions, h]
  refine ⟨readLat_of_mvkvs h, ?_, ?_⟩
  · intro timestamp
    cases hkey : store.mvkvs key with
    | none =>
        rw [hkey] at h
        simp [read, readWithin, hkey, h, Except.map]
    | some entry =>
        rw [hkey] at h
        simp only [read, readWithin, hversions, hkey, h]
        cases search entry.versions timestamp ((store.versions key).length + 1) 0
            entry.versions.length with
        | error fault => rfl
        | ok start =>
            simp only [bind, Except.bind]
            split
            · simp [pure, Except.pure, Except.map, hkey, h]
            · split
              · rfl
              · split
                · rfl
                · simp [pure, Except.pure, Except.map]
  · intro value timestamp
    cases hkey : store.mvkvs key with
    | none =>
        rw [hkey] at h
        simp [write, hkey, h, Except.map]
    | some entry =>
        rw [hkey] at h
        by_cases hlat : entry.lat < timestamp
        · simp [write, hkey, h, hlat, Except.map]
        · simp [write, hkey, h, hlat, Except.map]

theorem apply_of_ne {store : KVStore} {operation : Operation} {key : String}
    (h : key ≠ operation.key) : (store.apply operation).mvkvs key = store.mvkvs key := by
  apply apply_of_not_accesses
  intro timestamp haccess
  cases haccess with
  | write hwrite => exact h rfl
  | read hread => exact h rfl

/-- How a history decides on writes. -/
structure Admits (operations : List Operation) : Prop where
  unwritten : ∀ key, (after operations).readLat key = none ↔ ¬ Written operations key
  /-- The last access timestamp is the greatest one of the accesses. -/
  greatest : ∀ key lat, (after operations).readLat key = some lat →
    IsGreatest {timestamp | AccessedAt operations key timestamp} lat
  throws : ∀ key value timestamp,
    (∃ exception, (after operations).write key value timestamp = .error exception) ↔
      ∃ lat, (after operations).readLat key = some lat ∧ timestamp ≤ lat
  unchanged : ∀ key value timestamp exception,
    (after operations).write key value timestamp = .error exception →
      (after operations).apply (.write key value timestamp) = after operations
  others : ∀ operation key, key ≠ operation.key →
    SameFor key (after operations) ((after operations).apply operation)

theorem admits_of_history (operations : List Operation) : Admits operations where
  unwritten := by
    intro key
    rw [readLat_eq_none, written_iff, not_not]
  greatest := by
    intro key lat hlat
    have hbounds := bounds_readLat operations key
    rw [hlat] at hbounds
    exact hbounds
  throws := fun key value timestamp => write_throws_iff
  unchanged := by
    intro key value timestamp exception hwrite
    simp only [apply, hwrite]
  others := fun operation key hne => sameFor_of_mvkvs (apply_of_ne hne)

end UniversalDB.KVStore
