import Mathlib.Data.List.AList
import Mathlib.Data.List.Perm.Basic

/-! # Hash maps

An association list with distinct keys whose entries are traversed in any order. -/

abbrev UnorderedMap (κ α : Type*) := AList fun _ : κ => α

namespace UnorderedMap

variable {κ α : Type*} [DecidableEq κ]

/-- An order in which the entries of a map are traversed. -/
def Traversal (m : UnorderedMap κ α) (order : List ((_ : κ) × α)) : Prop :=
  order.Perm m.entries

instance [DecidableEq α] (m : UnorderedMap κ α) (order : List ((_ : κ) × α)) :
    Decidable (m.Traversal order) :=
  inferInstanceAs (Decidable (order.Perm m.entries))

theorem Traversal.mem_iff {m : UnorderedMap κ α} {order : List ((_ : κ) × α)}
    (h : m.Traversal order) {k : κ} {a : α} : ⟨k, a⟩ ∈ order ↔ m.lookup k = some a := by
  rw [List.Perm.mem_iff h, ← AList.mem_lookup_iff, Option.mem_def]

/-- Inserts an entry unless the key has one. -/
def insertNew (m : UnorderedMap κ α) (k : κ) (a : α) : UnorderedMap κ α :=
  if (m.lookup k).isSome then m else AList.insert k a m

theorem lookup_insertNew (m : UnorderedMap κ α) (k k' : κ) (a : α) :
    (m.insertNew k a).lookup k' = if k' = k then some ((m.lookup k).getD a) else m.lookup k' := by
  by_cases hk : k' = k
  · subst k'
    cases h : m.lookup k <;> simp [insertNew, h]
  · by_cases h : (m.lookup k).isSome
    · simp [insertNew, h, hk]
    · simp [insertNew, h, hk, AList.lookup_insert_ne hk]

theorem lookup_insert (m : UnorderedMap κ α) (k k' : κ) (a : α) :
    (AList.insert k a m).lookup k' = if k' = k then some a else m.lookup k' := by
  by_cases hk : k' = k
  · subst k'
    simp
  · simp [hk, AList.lookup_insert_ne hk]

theorem lookup_erase (m : UnorderedMap κ α) (k k' : κ) :
    (AList.erase k m).lookup k' = if k' = k then none else m.lookup k' := by
  by_cases hk : k' = k
  · subst k'
    simp
  · simp [hk, AList.lookup_erase_ne hk]

end UnorderedMap
