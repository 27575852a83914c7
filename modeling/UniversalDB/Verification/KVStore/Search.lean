import Mathlib.Algebra.Ring.Int.Defs
import UniversalDB.Library.Timeline
import UniversalDB.Model.KVStore

/-! # The binary search of a read

The versions at or below the timestamp of a read come first. The search ends behind them
as long as their number is an `int`, and leaves the versions otherwise. -/

namespace UniversalDB.KVStore

/-- The versions at or below a timestamp. -/
def upTo (versions : List VersionEntry) (timestamp : ℕ) : List VersionEntry :=
  versions.filter fun v => v.timestamp ≤ timestamp

section Loop

variable {before after : List VersionEntry} {timestamp : ℕ}

/-- A turn of the loop between bounds that are sizes. -/
theorem search_turn (hbefore : ∀ v ∈ before, v.timestamp ≤ timestamp)
    (hafter : ∀ v ∈ after, timestamp < v.timestamp) (fuel : ℕ) {start stop : ℕ}
    (hlt : start < stop) (hstop : stop ≤ (before ++ after).length) :
    search (before ++ after) timestamp (fuel + 1) start stop =
      if (start + stop) / 2 < before.length then
        search (before ++ after) timestamp fuel
          (Int.bmod (((start + stop) / 2 : ℕ) + 1) (2 ^ 32)) stop
      else search (before ++ after) timestamp fuel start ((start + stop) / 2) := by
  have hmiddle : (start + stop) / 2 < (before ++ after).length := by omega
  have hcondition : 0 ≤ (start : ℤ) ∧ (start : ℤ).toNat < stop := ⟨by omega, by simpa using hlt⟩
  rw [search, if_pos hcondition, Int.toNat_natCast]
  dsimp only
  rw [List.getElem?_eq_getElem hmiddle]
  by_cases hfirst : (start + stop) / 2 < before.length
  · have hle : (before ++ after)[(start + stop) / 2].timestamp ≤ timestamp := by
      rw [List.getElem_append_left hfirst]
      exact hbefore _ (List.getElem_mem _)
    simp only [hle, hfirst, if_true]
  · have hgt : timestamp < (before ++ after)[(start + stop) / 2].timestamp := by
      rw [List.getElem_append_right (not_lt.mp hfirst)]
      exact hafter _ (List.getElem_mem _)
    simp only [not_le.mpr hgt, hfirst, if_false]

/-- The search ends behind the versions at or below the timestamp, by induction on the
turns that are left. -/
theorem search_eq (hbefore : ∀ v ∈ before, v.timestamp ≤ timestamp)
    (hafter : ∀ v ∈ after, timestamp < v.timestamp) (hlength : before.length < 2 ^ 31)
    {fuel start stop : ℕ} (hstart : start ≤ before.length) (hle : before.length ≤ stop)
    (hstop : stop ≤ (before ++ after).length) (hfuel : stop - start < fuel) :
    search (before ++ after) timestamp fuel start stop = .ok (before.length : ℤ) := by
  induction fuel generalizing start stop with
  | zero => omega
  | succ fuel ih =>
      by_cases hlt : start < stop
      · rw [search_turn hbefore hafter fuel hlt hstop]
        split
        · rename_i hfirst
          have hnext : Int.bmod (((start + stop) / 2 : ℕ) + 1) (2 ^ 32) =
              ((start + stop) / 2 + 1 : ℕ) := by
            rw [Int.bmod_eq_of_le (by omega) (by omega)]
            rfl
          rw [hnext]
          exact ih hfirst hle hstop (by omega)
        · exact ih hstart (by omega) (by omega) (by omega)
      · have hends : ¬ (0 ≤ (start : ℤ) ∧ (start : ℤ).toNat < stop) := by
          rw [Int.toNat_natCast]
          exact fun h => hlt h.2
        have hsame : start = before.length := by omega
        rw [search, if_neg hends, hsame]

/-- With more versions at or below the timestamp than there are positions of type `int`, a
search that ends has a negative bound. -/
theorem search_of_long (hbefore : ∀ v ∈ before, v.timestamp ≤ timestamp)
    (hafter : ∀ v ∈ after, timestamp < v.timestamp) (hlength : 2 ^ 31 ≤ before.length)
    {fuel : ℕ} {start : ℤ} {stop : ℕ} (hstart : start < 2 ^ 31) (hle : before.length ≤ stop)
    (hstop : stop ≤ (before ++ after).length) {bound : ℤ}
    (h : search (before ++ after) timestamp fuel start stop = .ok bound) : bound < 0 := by
  induction fuel generalizing start stop with
  | zero => cases h
  | succ fuel ih =>
      by_cases hneg : start < 0
      · have hends : ¬ (0 ≤ start ∧ start.toNat < stop) := fun h => not_le.mpr hneg h.1
        rw [search, if_neg hends] at h
        cases h
        exact hneg
      · obtain ⟨start, rfl⟩ := Int.eq_ofNat_of_zero_le (not_lt.mp hneg)
        rw [search_turn hbefore hafter fuel (by omega) hstop] at h
        split at h
        · exact ih (Int.bmod_lt (by decide)) hle hstop h
        · exact ih hstart (by omega) (by omega) h

end Loop

/-! ## Reads -/

/-- What the versions hold at a timestamp: the value of the latest one at or below it. -/
def valueAt (versions : List VersionEntry) (timestamp : ℕ) : Option String :=
  (Timeline.latest VersionEntry.timestamp versions timestamp).map VersionEntry.value

/-- What a read leaves of the entry of its key. -/
def accessed (entry : MultiVersionEntry) (timestamp : ℕ) : MultiVersionEntry :=
  if (valueAt entry.versions timestamp).isSome then entry.access timestamp else entry

/-- What a read is there for: the value at its timestamp, which it seals. -/
def lookup (store : KVStore) (key : String) (timestamp : ℕ) : Option String × KVStore :=
  match store.mvkvs key with
  | none => (none, store)
  | some entry =>
      (valueAt entry.versions timestamp,
        ⟨store.mvkvs.assign key (accessed entry timestamp)⟩)

/-- The number of versions of a key at or below a timestamp is an `int`. -/
def Searchable (store : KVStore) (key : String) (timestamp : ℕ) : Prop :=
  (upTo (store.versions key) timestamp).length < 2 ^ 31

instance (store : KVStore) (key : String) (timestamp : ℕ) :
    Decidable (store.Searchable key timestamp) :=
  inferInstanceAs (Decidable (_ < _))

theorem valueAt_eq (versions : List VersionEntry) (timestamp : ℕ) :
    valueAt versions timestamp = (upTo versions timestamp).getLast?.map VersionEntry.value := rfl

theorem versions_of_none {store : KVStore} {key : String} (h : store.mvkvs key = none) :
    store.versions key = [] := by
  rw [versions, h]
  rfl

theorem versions_of_some {store : KVStore} {key : String} {entry : MultiVersionEntry}
    (h : store.mvkvs key = some entry) : store.versions key = entry.versions := by
  rw [versions, h]
  rfl

theorem versions_ascending (store : KVStore) (key : String) :
    (store.versions key).Pairwise fun v w => v.timestamp < w.timestamp := by
  cases h : store.mvkvs key with
  | none =>
      rw [versions_of_none h]
      exact List.Pairwise.nil
  | some entry =>
      rw [versions_of_some h]
      exact entry.ascending

/-- An entry splits at a timestamp. -/
theorem exists_after (entry : MultiVersionEntry) (timestamp : ℕ) :
    ∃ after, entry.versions = upTo entry.versions timestamp ++ after ∧
      (∀ v ∈ upTo entry.versions timestamp, v.timestamp ≤ timestamp) ∧
      ∀ v ∈ after, timestamp < v.timestamp := by
  obtain ⟨after, heq, hafter⟩ := Timeline.exists_split entry.ascending timestamp
  refine ⟨after, heq, ?_, hafter⟩
  intro v hv
  exact of_decide_eq_true (List.mem_filter.mp hv).2

/-- A read whose search stays within the `int`s is the lookup, however many turns more than
there are versions it is given. -/
theorem readWithin_eq {store : KVStore} {key : String} {timestamp fuel : ℕ}
    (h : store.Searchable key timestamp) (hfuel : (store.versions key).length < fuel) :
    store.readWithin fuel key timestamp = .ok (store.lookup key timestamp) := by
  cases hkey : store.mvkvs key with
  | none => simp only [readWithin, lookup, hkey]
  | some entry =>
      rw [Searchable, versions_of_some hkey] at h
      rw [versions_of_some hkey] at hfuel
      obtain ⟨after, hsplit, hbefore, hafter⟩ := exists_after entry timestamp
      have hvalue := valueAt_eq entry.versions timestamp
      have hsame : (upTo entry.versions timestamp).length ≤ entry.versions.length :=
        List.length_filter_le _ _
      have hsearch : search entry.versions timestamp fuel 0 entry.versions.length =
          .ok ((upTo entry.versions timestamp).length : ℤ) := by
        have hloop := @search_eq _ after timestamp hbefore hafter h fuel 0 entry.versions.length
          (Nat.zero_le _) hsame (by rw [← hsplit]) (by omega)
        rw [← hsplit] at hloop
        exact hloop
      simp only [readWithin, lookup, hkey, hsearch, bind, Except.bind, accessed, hvalue]
      generalize upTo entry.versions timestamp = before at hsplit hsame ⊢
      cases before using List.reverseRecOn with
      | nil =>
          rw [if_pos (by simp), KeyMap.assign_eq_self (by simpa using hkey)]
          rfl
      | append_singleton before version =>
          have hne : ((before ++ [version]).length : ℤ) ≠ 0 := by simp; omega
          have hpos : ¬ ((before ++ [version]).length : ℤ) < 0 := by omega
          have hlast : entry.versions[((before ++ [version]).length : ℤ).toNat - 1]? =
              some version := by
            rw [Int.toNat_natCast, hsplit]
            simp
          rw [if_neg hne, if_neg hpos, hlast]
          simp only [List.getLast?_concat, Option.map_some, Option.isSome_some, if_true]
          rfl

/-- Beyond that a read has no defined result. -/
theorem readWithin_of_long {store : KVStore} {key : String} {timestamp : ℕ}
    (h : ¬ store.Searchable key timestamp) (fuel : ℕ) :
    ∃ fault, store.readWithin fuel key timestamp = .error fault := by
  cases hkey : store.mvkvs key with
  | none =>
      rw [Searchable, versions_of_none hkey] at h
      exact absurd (by simp [upTo]) h
  | some entry =>
      rw [Searchable, versions_of_some hkey] at h
      obtain ⟨after, hsplit, hbefore, hafter⟩ := exists_after entry timestamp
      cases hsearch : search entry.versions timestamp fuel 0 entry.versions.length with
      | error fault => exact ⟨fault, by simp only [readWithin, hkey, hsearch, bind, Except.bind]⟩
      | ok bound =>
          have hneg : bound < 0 := by
            rw [hsplit] at hsearch
            exact search_of_long hbefore hafter (by omega) (by decide)
              (by rw [List.length_append]; exact Nat.le_add_right _ _) le_rfl hsearch
          refine ⟨.outOfRange, ?_⟩
          simp only [readWithin, hkey, hsearch, bind, Except.bind]
          rw [if_neg (by omega), if_pos hneg]

theorem read_eq {store : KVStore} {key : String} {timestamp : ℕ}
    (h : store.Searchable key timestamp) :
    store.read key timestamp = .ok (store.lookup key timestamp) :=
  readWithin_eq h (Nat.lt_succ_self _)

/-- Exactly when a read is defined, and what it does then. -/
theorem read_ok_iff {store : KVStore} {key : String} {timestamp : ℕ}
    {result : Option String × KVStore} :
    store.read key timestamp = .ok result ↔
      store.Searchable key timestamp ∧ store.lookup key timestamp = result := by
  by_cases h : store.Searchable key timestamp
  · simp [read_eq h, h]
  · obtain ⟨fault, hfault⟩ := readWithin_of_long h ((store.versions key).length + 1)
    rw [read, hfault]
    simp [h]

/-- What a read returns. -/
def readValue (store : KVStore) (key : String) (timestamp : ℕ) :
    Except Fault (Option String) :=
  (store.read key timestamp).map Prod.fst

theorem lookup_value (store : KVStore) (key : String) (timestamp : ℕ) :
    (store.lookup key timestamp).1 = valueAt (store.versions key) timestamp := by
  cases h : store.mvkvs key with
  | none =>
      simp only [lookup, h, versions_of_none h]
      rfl
  | some entry => simp only [lookup, h, versions_of_some h]

theorem readValue_ok_iff {store : KVStore} {key : String} {timestamp : ℕ}
    {value : Option String} :
    store.readValue key timestamp = .ok value ↔
      store.Searchable key timestamp ∧ valueAt (store.versions key) timestamp = value := by
  rw [← lookup_value]
  constructor
  · intro h
    cases hread : store.read key timestamp with
    | error fault =>
        rw [readValue, hread] at h
        cases h
    | ok result =>
        obtain ⟨hsearchable, rfl⟩ := read_ok_iff.mp hread
        rw [readValue, hread] at h
        exact ⟨hsearchable, Except.ok.inj h⟩
  · rintro ⟨hsearchable, rfl⟩
    rw [readValue, read_eq hsearchable]
    rfl

end UniversalDB.KVStore
