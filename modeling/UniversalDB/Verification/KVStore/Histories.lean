import Mathlib.Data.List.Induction
import Mathlib.Order.Bounds.Basic
import UniversalDB.Verification.KVStore

/-! # Histories of a store

What a store returns and admits after any sequence of calls, in terms of the calls. A write
that throws is skipped, and so is a read that is not defined. -/

namespace UniversalDB.KVStore

inductive Operation where
  | write (key value : String) (timestamp : ℕ)
  | read (key : String) (timestamp : ℕ)
deriving DecidableEq, Repr

def Operation.key : Operation → String
  | .write key _ _ => key
  | .read key _ => key

def apply (store : KVStore) : Operation → KVStore
  | .write key value timestamp =>
      match store.write key value timestamp with
      | .ok store' => store'
      | .error _ => store
  | .read key timestamp =>
      match store.read key timestamp with
      | .ok (_, store') => store'
      | .error _ => store

def applyAll (store : KVStore) (operations : List Operation) : KVStore :=
  operations.foldl apply store

/-- The store after a history. -/
def after (operations : List Operation) : KVStore := empty.applyAll operations

theorem after_append (before rest : List Operation) :
    after (before ++ rest) = (after before).applyAll rest :=
  List.foldl_append

theorem after_concat (operations : List Operation) (operation : Operation) :
    after (operations ++ [operation]) = (after operations).apply operation :=
  after_append operations [operation]

theorem apply_read_cases (store : KVStore) (key : String) (timestamp : ℕ) :
    (store.Searchable key timestamp ∧
      store.apply (.read key timestamp) = (store.lookup key timestamp).2) ∨
    (¬ store.Searchable key timestamp ∧ store.apply (.read key timestamp) = store) := by
  cases hread : store.read key timestamp with
  | ok result =>
      obtain ⟨hsearchable, rfl⟩ := read_ok_iff.mp hread
      exact .inl ⟨hsearchable, by simp only [apply, hread]⟩
  | error fault =>
      refine .inr ⟨?_, by simp only [apply, hread]⟩
      intro hsearchable
      rw [read_eq hsearchable] at hread
      cases hread

@[simp] theorem apply_read_versions (store : KVStore) (key : String) (timestamp : ℕ)
    (key' : String) :
    (store.apply (.read key timestamp)).versions key' = store.versions key' := by
  rcases apply_read_cases store key timestamp with ⟨-, happly⟩ | ⟨-, happly⟩
  · rw [happly, lookup_versions]
  · rw [happly]

/-! ## Snapshot reads -/

theorem Sealed.apply {store : KVStore} {key : String} {timestamp : ℕ}
    (h : store.Sealed key timestamp) (operation : Operation) :
    (store.apply operation).Sealed key timestamp ∧
      upTo ((store.apply operation).versions key) timestamp =
        upTo (store.versions key) timestamp := by
  cases operation with
  | write key' value timestamp' =>
      simp only [KVStore.apply]
      split
      · rename_i store' hwrite
        exact h.write hwrite
      · exact ⟨h, rfl⟩
  | read key' timestamp' =>
      refine ⟨?_, by rw [apply_read_versions]⟩
      rcases apply_read_cases store key' timestamp' with ⟨-, happly⟩ | ⟨-, happly⟩
      · rw [happly]
        exact h.lookup key' timestamp'
      · rw [happly]
        exact h

/-- What is sealed stays as it is. -/
theorem Sealed.applyAll {store : KVStore} {key : String} {timestamp : ℕ}
    (h : store.Sealed key timestamp) (operations : List Operation) :
    (store.applyAll operations).Sealed key timestamp ∧
      upTo ((store.applyAll operations).versions key) timestamp =
        upTo (store.versions key) timestamp := by
  induction operations generalizing store with
  | nil => exact ⟨h, rfl⟩
  | cons operation operations ih =>
      obtain ⟨hsealed, hvalue⟩ := h.apply operation
      obtain ⟨hsealed', hvalue'⟩ := ih hsealed
      exact ⟨hsealed', hvalue'.trans hvalue⟩

/-- A write of the key has been accepted. -/
def Written (operations : List Operation) (key : String) : Prop :=
  ∃ before value timestamp rest, operations = before ++ .write key value timestamp :: rest ∧
    ∃ store, (after before).write key value timestamp = .ok store

theorem versions_apply_ne_nil {store : KVStore} {key : String} (h : store.versions key ≠ [])
    (operation : Operation) : (store.apply operation).versions key ≠ [] := by
  cases operation with
  | write key' value timestamp =>
      simp only [apply]
      split
      · rename_i store' hwrite
        rw [write_versions hwrite]
        split
        · simp
        · exact h
      · exact h
  | read key' timestamp =>
      rw [apply_read_versions]
      exact h

theorem Written.concat {operations : List Operation} {key : String}
    (h : Written operations key) (operation : Operation) :
    Written (operations ++ [operation]) key := by
  obtain ⟨before, value, timestamp, rest, rfl, hwrite⟩ := h
  exact ⟨before, value, timestamp, rest ++ [operation], by simp, hwrite⟩

theorem versions_applyAll_ne_nil {store : KVStore} {key : String}
    (h : store.versions key ≠ []) (operations : List Operation) :
    (store.applyAll operations).versions key ≠ [] := by
  induction operations generalizing store with
  | nil => exact h
  | cons operation operations ih => exact ih (versions_apply_ne_nil h operation)

theorem Written.versions_ne_nil {operations : List Operation} {key : String}
    (h : Written operations key) : (after operations).versions key ≠ [] := by
  obtain ⟨before, value, timestamp, rest, rfl, store, hwrite⟩ := h
  rw [after_append]
  have hstore : store.versions key ≠ [] := by
    rw [write_versions hwrite, if_pos rfl]
    simp
  change (((after before).apply (.write key value timestamp)).applyAll rest).versions key ≠ []
  simp only [apply, hwrite]
  exact versions_applyAll_ne_nil hstore rest

/-- A key has versions if and only if a write of it has been accepted. -/
theorem written_iff {operations : List Operation} {key : String} :
    Written operations key ↔ (after operations).versions key ≠ [] := by
  refine ⟨Written.versions_ne_nil, ?_⟩
  intro h
  induction operations using List.reverseRec with
  | nil => exact absurd rfl h
  | append_singleton operations operation ih =>
      by_cases hbefore : (after operations).versions key = []
      · rw [after_concat] at h
        cases operation with
        | write key' value timestamp =>
            simp only [apply] at h
            split at h
            · rename_i store hwrite
              rw [write_versions hwrite] at h
              split at h
              · rename_i heq
                subst heq
                exact ⟨operations, value, timestamp, [], rfl, store, hwrite⟩
              · exact absurd hbefore h
            · exact absurd hbefore h
        | read key' timestamp =>
            rw [apply_read_versions] at h
            exact absurd hbefore h
      · exact (ih hbefore).concat operation

/-- A defined read of a key that has been written returns the same for ever. -/
theorem readValue_stable {operations : List Operation} {key : String}
    (h : (after operations).versions key ≠ []) {timestamp : ℕ} {value : Option String}
    (hread : (after operations).readValue key timestamp = .ok value) (rest : List Operation) :
    (after (operations ++ .read key timestamp :: rest)).readValue key timestamp =
      .ok value := by
  obtain ⟨hsearchable, hvalue⟩ := readValue_ok_iff.mp hread
  have hsealed := lookup_sealed h timestamp
  have happly : (after operations).apply (.read key timestamp) =
      ((after operations).lookup key timestamp).2 := by
    simp only [apply, read_eq hsearchable]
  obtain ⟨-, hupTo⟩ := hsealed.applyAll rest
  rw [after_append]
  change (((after operations).apply (.read key timestamp)).applyAll rest).readValue
    key timestamp = _
  rw [happly, readValue_ok_iff, Searchable, valueAt_eq, hupTo, lookup_versions]
  exact ⟨hsearchable, hvalue⟩

theorem versions_ne_nil_of_readValue {store : KVStore} {key value : String} {timestamp : ℕ}
    (h : store.readValue key timestamp = .ok (some value)) : store.versions key ≠ [] := by
  obtain ⟨-, hvalue⟩ := readValue_ok_iff.mp h
  intro hnil
  rw [hnil] at hvalue
  cases hvalue

/-- Snapshot reads are stable. -/
theorem snapshot_reads_stable (operations : List Operation) (key : String) (timestamp : ℕ) :
    (∀ value, (after operations).readValue key timestamp = .ok (some value) → ∀ rest,
      (after (operations ++ .read key timestamp :: rest)).readValue key timestamp =
        .ok (some value)) ∧
      (Written operations key → (after operations).readValue key timestamp = .ok none →
        ∀ rest, (after (operations ++ .read key timestamp :: rest)).readValue key timestamp =
          .ok none) := by
  constructor
  · intro value hread rest
    exact readValue_stable (versions_ne_nil_of_readValue hread) hread rest
  · intro hwritten hread rest
    exact readValue_stable (written_iff.mp hwritten) hread rest

end UniversalDB.KVStore
