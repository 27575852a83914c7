import Mathlib.Order.Lattice
import Mathlib.Data.List.Basic

/-! # Half-open intervals between cuts

An ascending list of cuts divides a linear order into intervals that are closed below and
open above. The first has no lower bound and the last no upper bound. -/

structure HalfOpenInterval (α : Type*) where
  lower : Option α
  upper : Option α

namespace HalfOpenInterval

variable {α : Type*} [LinearOrder α]

def Contains (i : HalfOpenInterval α) (x : α) : Prop :=
  (∀ a ∈ i.lower, a ≤ x) ∧ ∀ b ∈ i.upper, x < b

/-- The intervals between `lower` and the cuts. -/
def between (lower : Option α) : List α → List (HalfOpenInterval α)
  | [] => [⟨lower, none⟩]
  | cut :: cuts => ⟨lower, some cut⟩ :: between (some cut) cuts

/-- Everything that an interval behind a cut contains is at or above the cut. -/
theorem le_of_mem_between {cuts : List α} :
    ∀ {lower : α}, (lower :: cuts).Pairwise (· < ·) →
      ∀ i ∈ between (some lower) cuts, ∀ x, i.Contains x → lower ≤ x := by
  induction cuts with
  | nil =>
      intro lower _ i hi x hx
      cases List.mem_singleton.mp hi
      exact hx.1 lower rfl
  | cons cut cuts ih =>
      intro lower hascending i hi x hx
      rw [List.pairwise_cons] at hascending
      rcases List.mem_cons.mp hi with rfl | hi
      · exact hx.1 lower rfl
      · exact le_trans (le_of_lt (hascending.1 cut List.mem_cons_self))
          (ih hascending.2 i hi x hx)

/-- Every element at or above the lower bound is in exactly one of the intervals. -/
theorem existsUnique_between {cuts : List α} :
    ∀ lower : Option α, cuts.Pairwise (· < ·) → (∀ a ∈ lower, ∀ cut ∈ cuts, a < cut) →
      ∀ x, (∀ a ∈ lower, a ≤ x) → ∃ i ∈ between lower cuts, i.Contains x ∧
        ∀ j ∈ between lower cuts, j.Contains x → j = i := by
  induction cuts with
  | nil =>
      intro lower _ _ x hlower
      refine ⟨⟨lower, none⟩, List.mem_singleton_self _, ⟨hlower, by simp⟩, ?_⟩
      intro j hj _
      exact List.mem_singleton.mp hj
  | cons cut cuts ih =>
      intro lower hascending hbelow x hlower
      by_cases hx : x < cut
      · refine ⟨⟨lower, some cut⟩, List.mem_cons_self, ⟨hlower, ?_⟩, ?_⟩
        · intro b hb
          cases hb
          exact hx
        · intro j hj hcontains
          rcases List.mem_cons.mp hj with rfl | hj
          · rfl
          · exact absurd hx (le_of_mem_between hascending j hj x hcontains).not_gt
      · rw [List.pairwise_cons] at hascending
        have hcut : ∀ a ∈ some cut, a = cut := fun a ha => (Option.mem_some.mp ha).symm
        obtain ⟨i, hi, hcontains, hunique⟩ := ih (some cut) hascending.2
          (fun a ha => hcut a ha ▸ hascending.1) x (fun a ha => hcut a ha ▸ not_lt.mp hx)
        refine ⟨i, List.mem_cons_of_mem _ hi, hcontains, ?_⟩
        intro j hj hj'
        rcases List.mem_cons.mp hj with rfl | hj
        · exact absurd (hj'.2 cut rfl) hx
        · exact hunique j hj hj'

end HalfOpenInterval
