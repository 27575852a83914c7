import Mathlib.Order.Lattice
import Mathlib.Data.List.Basic

/-! # Maps whose entries are traversed in the order of their keys

Keys are compared by their ranks: two keys of the same rank are one key to the map, and the
one that has come first stays. -/

structure OrderedMap {κ ρ : Type*} [LinearOrder ρ] (rank : κ → ρ) (α : Type*) where
  entries : List (κ × α)
  sorted : entries.Pairwise fun x y => rank x.1 < rank y.1

namespace OrderedMap

variable {κ ρ α : Type*} [LinearOrder ρ] {rank : κ → ρ}

def empty : OrderedMap rank α := ⟨[], List.Pairwise.nil⟩

/-- The entry of a key, under the key that it was inserted with. -/
def find (m : OrderedMap rank α) (k : κ) : Option (κ × α) :=
  m.entries.find? fun x => decide (rank x.1 = rank k)

theorem find_eq_none {m : OrderedMap rank α} {k : κ} :
    m.find k = none ↔ ∀ x ∈ m.entries, rank x.1 ≠ rank k := by
  simp [find]

/-! ## Insertion -/

/-- The entries with a new one before the first entry of a higher rank. -/
def insertEntry (rank : κ → ρ) (k : κ) (a : α) : List (κ × α) → List (κ × α)
  | [] => [(k, a)]
  | x :: rest =>
      if rank k < rank x.1 then (k, a) :: x :: rest
      else if rank x.1 < rank k then x :: insertEntry rank k a rest
      else x :: rest

theorem mem_of_mem_insertEntry {k : κ} {a : α} {entries : List (κ × α)} {y : κ × α}
    (h : y ∈ insertEntry rank k a entries) : y = (k, a) ∨ y ∈ entries := by
  induction entries with
  | nil => simpa [insertEntry] using h
  | cons x rest ih =>
      simp only [insertEntry] at h
      split at h
      · simpa using h
      · split at h
        · rcases List.mem_cons.mp h with rfl | htail
          · exact .inr List.mem_cons_self
          · exact (ih htail).imp_right fun hrest => List.mem_cons_of_mem _ hrest
        · exact .inr h

theorem mem_insertEntry {k : κ} {a : α} {entries : List (κ × α)}
    (hnew : ∀ x ∈ entries, rank x.1 ≠ rank k) {y : κ × α} :
    y ∈ insertEntry rank k a entries ↔ y = (k, a) ∨ y ∈ entries := by
  refine ⟨mem_of_mem_insertEntry, ?_⟩
  intro h
  induction entries with
  | nil => simpa [insertEntry] using h
  | cons x rest ih =>
      simp only [insertEntry]
      split
      · simpa using h
      · rename_i hge
        have hlt : rank x.1 < rank k :=
          lt_of_le_of_ne (not_lt.mp hge) (hnew x List.mem_cons_self)
        rw [if_pos hlt, List.mem_cons]
        rcases h with rfl | hmem
        · exact .inr (ih (fun z hz => hnew z (List.mem_cons_of_mem _ hz)) (.inl rfl))
        · rcases List.mem_cons.mp hmem with rfl | hrest
          · exact .inl rfl
          · exact .inr (ih (fun z hz => hnew z (List.mem_cons_of_mem _ hz)) (.inr hrest))

theorem insertEntry_sorted (k : κ) (a : α) {entries : List (κ × α)}
    (h : entries.Pairwise fun x y => rank x.1 < rank y.1) :
    (insertEntry rank k a entries).Pairwise fun x y => rank x.1 < rank y.1 := by
  induction h with
  | nil => exact List.pairwise_singleton _ _
  | @cons x rest hx hrest ih =>
      simp only [insertEntry]
      split
      · rename_i hlt
        refine (hrest.cons hx).cons ?_
        intro y hy
        rcases List.mem_cons.mp hy with rfl | hmem
        · exact hlt
        · exact hlt.trans (hx y hmem)
      · split
        · rename_i hlt
          refine ih.cons ?_
          intro y hy
          rcases mem_of_mem_insertEntry hy with rfl | hmem
          · exact hlt
          · exact hx y hmem
        · exact hrest.cons hx

/-- Inserts an entry unless the key has one. -/
def insert (m : OrderedMap rank α) (k : κ) (a : α) : OrderedMap rank α :=
  ⟨insertEntry rank k a m.entries, insertEntry_sorted k a m.sorted⟩

/-! ## Changes in place -/

/-- Changes the values, which do not take part in the order. -/
def mapValues (m : OrderedMap rank α) (f : κ → α → α) : OrderedMap rank α where
  entries := m.entries.map fun x => (x.1, f x.1 x.2)
  sorted := List.Pairwise.map _ (fun _ _ h => h) m.sorted

/-- Overwrites the value of a key. -/
def assign (m : OrderedMap rank α) (k : κ) (a : α) : OrderedMap rank α :=
  m.mapValues fun k' a' => if rank k' = rank k then a else a'

/-- Keeps some of the entries. -/
def sublist (m : OrderedMap rank α) (entries : List (κ × α)) (h : entries.Sublist m.entries) :
    OrderedMap rank α :=
  ⟨entries, m.sorted.sublist h⟩

end OrderedMap
