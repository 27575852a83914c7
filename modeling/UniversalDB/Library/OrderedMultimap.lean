import Mathlib.Data.List.Sort

/-! # Multimaps that keep entries of one key in the order of insertion

Entries are numbered in the order in which they come in, so two entries of one key and one
value are told apart. -/

/-- `number` is the number of entries that have come in before. -/
structure OrderedMultimap.Entry (κ α : Type*) where
  key : κ
  number : ℕ
  value : α
deriving DecidableEq, Repr

/-- The order in which entries are traversed. -/
def OrderedMultimap.Entry.Before {κ α : Type*} [LT κ] (x y : Entry κ α) : Prop :=
  x.key < y.key ∨ x.key = y.key ∧ x.number < y.number

/-- `fresh` is the number of the next entry. -/
@[ext]
structure OrderedMultimap (κ α : Type*) [LinearOrder κ] where
  entries : List (OrderedMultimap.Entry κ α)
  fresh : ℕ
  sorted : entries.Pairwise OrderedMultimap.Entry.Before
  below : ∀ x ∈ entries, x.number < fresh

namespace OrderedMultimap

variable {κ α : Type*} [LinearOrder κ]

open Entry

theorem Entry.Before.le {x y : Entry κ α} (h : x.Before y) : x.key ≤ y.key := by
  rcases h with hlt | ⟨heq, -⟩
  · exact hlt.le
  · exact heq.le

theorem before_of_le {x y : Entry κ α} (hkey : x.key ≤ y.key) (hnumber : x.number < y.number) :
    x.Before y := by
  rcases hkey.lt_or_eq with hlt | heq
  · exact .inl hlt
  · exact .inr ⟨heq, hnumber⟩

def empty : OrderedMultimap κ α := ⟨[], 0, .nil, by simp⟩

/-! ## Insertion -/

/-- The entries with a new one before the first entry of a higher key. -/
def insertEntry (x : Entry κ α) (entries : List (Entry κ α)) : List (Entry κ α) :=
  entries.orderedInsert (fun x y => x.key < y.key) x

theorem perm_insertEntry (x : Entry κ α) (entries : List (Entry κ α)) :
    (insertEntry x entries).Perm (x :: entries) :=
  List.perm_orderedInsert _ x entries

@[simp] theorem mem_insertEntry {x y : Entry κ α} {entries : List (Entry κ α)} :
    y ∈ insertEntry x entries ↔ y = x ∨ y ∈ entries := by
  simp [insertEntry]

/-- A new entry goes behind the entries of its key. -/
theorem insertEntry_cons_of_le {x y : Entry κ α} (h : y.key ≤ x.key)
    (entries : List (Entry κ α)) :
    insertEntry x (y :: entries) = y :: insertEntry x entries := by
  rw [insertEntry, List.orderedInsert_cons, if_neg h.not_gt, insertEntry]

theorem sorted_insertEntry {x : Entry κ α} {entries : List (Entry κ α)}
    (hsorted : entries.Pairwise Before) (hlast : ∀ y ∈ entries, y.number < x.number) :
    (insertEntry x entries).Pairwise Before := by
  induction entries with
  | nil => simp [insertEntry]
  | cons y entries ih =>
      obtain ⟨hhead, htail⟩ := List.pairwise_cons.mp hsorted
      by_cases hlt : x.key < y.key
      · rw [insertEntry, List.orderedInsert_cons, if_pos hlt]
        refine List.pairwise_cons.mpr ⟨?_, hsorted⟩
        intro z hz
        rcases List.mem_cons.mp hz with rfl | hz
        · exact .inl hlt
        · exact .inl (hlt.trans_le (hhead z hz).le)
      · rw [insertEntry_cons_of_le (not_lt.mp hlt)]
        refine List.pairwise_cons.mpr ⟨?_, ih htail (List.forall_mem_of_forall_mem_cons hlast)⟩
        intro z hz
        rcases mem_insertEntry.mp hz with rfl | hz
        · exact before_of_le (not_lt.mp hlt) (hlast y List.mem_cons_self)
        · exact hhead z hz

/-- The entry that the next insertion makes. -/
def newEntry (m : OrderedMultimap κ α) (key : κ) (value : α) : Entry κ α :=
  ⟨key, m.fresh, value⟩

def insert (m : OrderedMultimap κ α) (key : κ) (value : α) : OrderedMultimap κ α where
  entries := insertEntry (m.newEntry key value) m.entries
  fresh := m.fresh + 1
  sorted := sorted_insertEntry m.sorted m.below
  below x hx := by
    rcases mem_insertEntry.mp hx with rfl | hx
    · exact Nat.lt_succ_self _
    · exact Nat.lt_succ_of_lt (m.below x hx)

@[simp] theorem fresh_insert (m : OrderedMultimap κ α) (key : κ) (value : α) :
    (m.insert key value).fresh = m.fresh + 1 := rfl

theorem mem_insert {m : OrderedMultimap κ α} {key : κ} {value : α} {x : Entry κ α} :
    x ∈ (m.insert key value).entries ↔ x = m.newEntry key value ∨ x ∈ m.entries :=
  mem_insertEntry

theorem perm_insert (m : OrderedMultimap κ α) (key : κ) (value : α) :
    (m.insert key value).entries.Perm (m.newEntry key value :: m.entries) :=
  perm_insertEntry _ _

/-! ## The first entry -/

/-- All entries but the first one. -/
def tail (m : OrderedMultimap κ α) : OrderedMultimap κ α where
  entries := m.entries.tail
  fresh := m.fresh
  sorted := m.sorted.tail
  below x hx := m.below x (List.mem_of_mem_tail hx)

@[simp] theorem fresh_tail (m : OrderedMultimap κ α) : m.tail.fresh = m.fresh := rfl

theorem entries_tail {m : OrderedMultimap κ α} {x : Entry κ α} {rest : List (Entry κ α)}
    (h : m.entries = x :: rest) : m.tail.entries = rest := by
  change m.entries.tail = rest
  rw [h, List.tail_cons]

/-- The first entry stays where it is if no lower key comes in. -/
theorem entries_insert_of_le {m : OrderedMultimap κ α} {x : Entry κ α}
    {rest : List (Entry κ α)} (h : m.entries = x :: rest) {key : κ} (hkey : x.key ≤ key)
    (value : α) :
    (m.insert key value).entries = x :: (m.tail.insert key value).entries := by
  change insertEntry (m.newEntry key value) m.entries = _
  rw [h, insertEntry_cons_of_le hkey, ← entries_tail h]
  rfl

theorem tail_insert_of_le {m : OrderedMultimap κ α} {x : Entry κ α} {rest : List (Entry κ α)}
    (h : m.entries = x :: rest) {key : κ} (hkey : x.key ≤ key) (value : α) :
    (m.insert key value).tail = m.tail.insert key value := by
  ext1
  · exact entries_tail (entries_insert_of_le h hkey value)
  · rfl

/-! ## The entries up to a key -/

/-- The values of the entries whose keys are at most `key`. -/
def upTo (m : OrderedMultimap κ α) (key : κ) : List α :=
  (m.entries.filter fun x => x.key ≤ key).map Entry.value

theorem upTo_of_le {m : OrderedMultimap κ α} {x : Entry κ α} {rest : List (Entry κ α)}
    (h : m.entries = x :: rest) {key : κ} (hkey : x.key ≤ key) :
    m.upTo key = x.value :: m.tail.upTo key := by
  rw [upTo, upTo, entries_tail h, h, List.filter_cons_of_pos (by simpa using hkey),
    List.map_cons]

/-- If the first key is higher, all are. -/
theorem lt_of_lt_first {m : OrderedMultimap κ α} {x : Entry κ α} {rest : List (Entry κ α)}
    (h : m.entries = x :: rest) {key : κ} (hkey : key < x.key) :
    ∀ y ∈ m.entries, key < y.key := by
  have hsorted := m.sorted
  rw [h] at hsorted ⊢
  intro y hy
  rcases List.mem_cons.mp hy with rfl | hy
  · exact hkey
  · exact hkey.trans_le ((List.pairwise_cons.mp hsorted).1 y hy).le

theorem filter_insertEntry_of_lt {x : Entry κ α} {key : κ} (h : key < x.key)
    (entries : List (Entry κ α)) :
    (insertEntry x entries).filter (fun y => y.key ≤ key) =
      entries.filter fun y => y.key ≤ key := by
  induction entries with
  | nil => simp [insertEntry, h]
  | cons y entries ih =>
      by_cases hlt : x.key < y.key
      · rw [insertEntry, List.orderedInsert_cons, if_pos hlt,
          List.filter_cons_of_neg (by simpa using h)]
      · rw [insertEntry_cons_of_le (not_lt.mp hlt), List.filter_cons, List.filter_cons, ih]

theorem filter_insertEntry_self (x : Entry κ α) {entries : List (Entry κ α)}
    (hsorted : entries.Pairwise Before) :
    (insertEntry x entries).filter (fun y => y.key ≤ x.key) =
      entries.filter (fun y => y.key ≤ x.key) ++ [x] := by
  induction entries with
  | nil => simp [insertEntry]
  | cons y entries ih =>
      obtain ⟨hhead, htail⟩ := List.pairwise_cons.mp hsorted
      by_cases hlt : x.key < y.key
      · have hall : ∀ z ∈ y :: entries, ¬ z.key ≤ x.key := by
          intro z hz
          rcases List.mem_cons.mp hz with rfl | hz
          · exact hlt.not_ge
          · exact (hlt.trans_le (hhead z hz).le).not_ge
        have hnil : (y :: entries).filter (fun z => z.key ≤ x.key) = [] := by
          rw [List.filter_eq_nil_iff]
          simpa using hall
        rw [insertEntry, List.orderedInsert_cons, if_pos hlt,
          List.filter_cons_of_pos (by simp), hnil, List.nil_append]
      · have hle : y.key ≤ x.key := not_lt.mp hlt
        rw [insertEntry_cons_of_le hle, List.filter_cons_of_pos (by simpa using hle), ih htail,
          List.filter_cons_of_pos (by simpa using hle), List.cons_append]

theorem upTo_insert_of_lt (m : OrderedMultimap κ α) {key key' : κ} (h : key < key')
    (value : α) : (m.insert key' value).upTo key = m.upTo key := by
  change ((insertEntry _ m.entries).filter _).map _ = _
  rw [filter_insertEntry_of_lt h]
  rfl

/-- An entry of the highest key comes in last. -/
theorem upTo_insert_self (m : OrderedMultimap κ α) (key : κ) (value : α) :
    (m.insert key value).upTo key = m.upTo key ++ [value] := by
  change ((insertEntry (m.newEntry key value) m.entries).filter _).map _ = _
  have hfilter := filter_insertEntry_self (m.newEntry key value) m.sorted
  change (insertEntry (m.newEntry key value) m.entries).filter (fun y => y.key ≤ key) = _
    at hfilter
  rw [hfilter, List.map_append]
  rfl

end OrderedMultimap
