import Mathlib.Data.Nat.Notation
import Mathlib.Logic.Function.Basic
import Mathlib.Order.Bounds.Basic

/-! # Maps from keys to values

A map is its lookup function. `insert` keeps a value that is already there, `assign`
overwrites it, as the two ways of writing to a C++ associative container do. -/

abbrev KeyMap (κ α : Type*) := κ → Option α

namespace KeyMap

variable {κ α : Type*}

def empty : KeyMap κ α := fun _ => none

variable [DecidableEq κ]

def insert (m : KeyMap κ α) (k : κ) (a : α) : KeyMap κ α :=
  Function.update m k (some ((m k).getD a))

def assign (m : KeyMap κ α) (k : κ) (a : α) : KeyMap κ α :=
  Function.update m k (some a)

omit [DecidableEq κ] in
@[simp] theorem empty_apply (k : κ) : (empty : KeyMap κ α) k = none := rfl

theorem insert_apply (m : KeyMap κ α) (k k' : κ) (a : α) :
    m.insert k a k' = if k' = k then some ((m k).getD a) else m k' := by
  by_cases h : k' = k
  · subst k'
    simp [insert]
  · simp [insert, h]

theorem assign_apply (m : KeyMap κ α) (k k' : κ) (a : α) :
    m.assign k a k' = if k' = k then some a else m k' := by
  by_cases h : k' = k
  · subst k'
    simp [assign]
  · simp [assign, h]

@[simp] theorem insert_self (m : KeyMap κ α) (k : κ) (a : α) :
    m.insert k a k = some ((m k).getD a) := by
  simp [insert_apply]

@[simp] theorem assign_self (m : KeyMap κ α) (k : κ) (a : α) : m.assign k a k = some a := by
  simp [assign_apply]

theorem insert_of_ne (m : KeyMap κ α) {k k' : κ} (a : α) (h : k' ≠ k) :
    m.insert k a k' = m k' := by
  simp [insert_apply, h]

theorem assign_of_ne (m : KeyMap κ α) {k k' : κ} (a : α) (h : k' ≠ k) :
    m.assign k a k' = m k' := by
  simp [assign_apply, h]

/-- Inserting never changes a value that is already there. -/
theorem insert_of_some {m : KeyMap κ α} {k k' : κ} {a b : α} (h : m k' = some b) :
    m.insert k a k' = some b := by
  by_cases hk : k' = k
  · subst k'
    simp [h]
  · rw [insert_of_ne m a hk, h]

theorem isSome_insert {m : KeyMap κ α} {k : κ} (h : (m k).isSome) (l : κ) (a : α) :
    (m.insert l a k).isSome := by
  obtain ⟨b, hb⟩ := Option.isSome_iff_exists.mp h
  rw [insert_of_some hb]
  rfl

theorem isSome_assign {m : KeyMap κ α} {k : κ} (h : (m k).isSome) (l : κ) (a : α) :
    (m.assign l a k).isSome := by
  rw [assign_apply]
  split
  · rfl
  · exact h

theorem insert_eq_self {m : KeyMap κ α} {k : κ} {a : α} (h : (m k).isSome) :
    m.insert k a = m := by
  funext k'
  obtain ⟨b, hb⟩ := Option.isSome_iff_exists.mp h
  by_cases hk : k' = k
  · subst k'
    simp [hb]
  · exact insert_of_ne m a hk

theorem assign_eq_self {m : KeyMap κ α} {k : κ} {a : α} (h : m k = some a) :
    m.assign k a = m := by
  funext k'
  by_cases hk : k' = k
  · subst k'
    simp [h]
  · exact assign_of_ne m a hk

/-- The entries of a family of maps in which one entry is assigned. -/
theorem update_assign_cases {ι : Type*} [DecidableEq ι] {m : ι → KeyMap κ α} {i j : ι}
    {k l : κ} {a b : α} (h : Function.update m i ((m i).assign k a) j l = some b) :
    (j = i ∧ l = k ∧ b = a) ∨ m j l = some b := by
  by_cases hj : j = i
  · subst j
    rw [Function.update_self, assign_apply] at h
    split at h
    · rename_i hl
      exact .inl ⟨rfl, hl, (Option.some.inj h).symm⟩
    · exact .inr h
  · rw [Function.update_of_ne hj] at h
    exact .inr h

/-- `m` has no other entries than `m'`. -/
def SubMap (m m' : KeyMap κ α) : Prop :=
  ∀ k a, m k = some a → m' k = some a

omit [DecidableEq κ] in
theorem SubMap.refl (m : KeyMap κ α) : m.SubMap m := fun _ _ h => h

theorem SubMap.insert {m m' : KeyMap κ α} {k : κ} {a : α} (h : m.SubMap m')
    (hk : m' k = some a) : (m.insert k a).SubMap m' := by
  intro l b hl
  rw [insert_apply] at hl
  split at hl
  · rename_i hlk
    subst l
    cases hm : m k with
    | none =>
        rw [hm] at hl
        rw [hk]
        exact hl
    | some c =>
        rw [hm] at hl
        exact h k b (by rw [hm]; exact hl)
  · exact h l b hl

theorem subMap_insert (m : KeyMap κ α) (k : κ) (a : α) : m.SubMap (m.insert k a) :=
  fun _ _ h => insert_of_some h

/-! ## Maps whose keys are numbers -/

/-- `k` is the least key without a value. -/
structure FirstGap (m : KeyMap ℕ α) (k : ℕ) : Prop where
  unset : m k = none
  below : ∀ i < k, (m i).isSome

theorem FirstGap.isLeast {m : KeyMap ℕ α} {k : ℕ} (h : m.FirstGap k) :
    IsLeast {i | m i = none} k := by
  refine ⟨h.unset, ?_⟩
  intro i hi
  by_contra hlt
  have hsome := h.below i (by omega)
  have hunset : m i = none := hi
  rw [hunset] at hsome
  cases hsome

theorem FirstGap.unique {m : KeyMap ℕ α} {k k' : ℕ} (h : m.FirstGap k)
    (h' : m.FirstGap k') : k = k' := by
  rcases Nat.lt_trichotomy k k' with hlt | heq | hgt
  · have hsome := h'.below k hlt
    rw [h.unset] at hsome
    cases hsome
  · exact heq
  · have hsome := h.below k' hgt
    rw [h'.unset] at hsome
    cases hsome

theorem FirstGap.le_of_subMap {m m' : KeyMap ℕ α} {k k' : ℕ} (h : m.FirstGap k)
    (h' : m'.FirstGap k') (hsub : m.SubMap m') : k ≤ k' := by
  by_contra hlt
  obtain ⟨a, ha⟩ := Option.isSome_iff_exists.mp (h.below k' (by omega))
  have hsome := hsub k' a ha
  rw [h'.unset] at hsome
  cases hsome

end KeyMap
