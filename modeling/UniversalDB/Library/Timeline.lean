import Mathlib.Data.List.Induction
import Mathlib.Data.List.Nodup
import Mathlib.Logic.Function.Basic
import Mathlib.Order.Lattice

/-! # Lists ordered by time

`latest key xs t` is the last element of `xs` at or before `t`, where `key` is the time of
an element. -/

namespace Timeline

variable {α τ : Type*} [LinearOrder τ] {key : α → τ}

def latest (key : α → τ) (xs : List α) (t : τ) : Option α :=
  (xs.filter fun x => key x ≤ t).getLast?

/-- If the elements at or before `t` come first, `latest` is the last of them. -/
theorem latest_append {before after : List α} {t : τ} (hbefore : ∀ x ∈ before, key x ≤ t)
    (hafter : ∀ x ∈ after, t < key x) :
    latest key (before ++ after) t = before.getLast? := by
  have hkeep : before.filter (fun x => decide (key x ≤ t)) = before := by
    rw [List.filter_eq_self]
    intro x hx
    exact decide_eq_true (hbefore x hx)
  have hdrop : after.filter (fun x => decide (key x ≤ t)) = [] := by
    rw [List.filter_eq_nil_iff]
    intro x hx
    simpa using hafter x hx
  rw [latest, List.filter_append, hkeep, hdrop, List.append_nil]

/-- The elements of an ascending list at or before `t` come first. -/
theorem exists_split {xs : List α} (hascending : xs.Pairwise fun x y => key x < key y) (t : τ) :
    ∃ after, xs = xs.filter (fun x => key x ≤ t) ++ after ∧ ∀ x ∈ after, t < key x := by
  induction xs with
  | nil => exact ⟨[], rfl, by simp⟩
  | cons x xs ih =>
      obtain ⟨hfirst, hrest⟩ := List.pairwise_cons.mp hascending
      by_cases hle : key x ≤ t
      · obtain ⟨after, heq, hafter⟩ := ih hrest
        refine ⟨after, ?_, hafter⟩
        rw [List.filter_cons_of_pos (by simpa using hle), List.cons_append, ← heq]
      · have hlt := not_le.mp hle
        have hall : ∀ y ∈ x :: xs, t < key y := by
          intro y hy
          rcases List.mem_cons.mp hy with rfl | hy
          · exact hlt
          · exact hlt.trans (hfirst y hy)
        refine ⟨x :: xs, ?_, hall⟩
        have hnone : (x :: xs).filter (fun x => decide (key x ≤ t)) = [] := by
          rw [List.filter_eq_nil_iff]
          intro y hy
          simpa using hall y hy
        rw [hnone, List.nil_append]

theorem latest_eq_none {xs : List α} {t : τ} :
    latest key xs t = none ↔ ∀ x ∈ xs, t < key x := by
  rw [latest, List.getLast?_eq_none_iff, List.filter_eq_nil_iff]
  simp

/-- A later element does not change what is at or before `t`. -/
theorem filter_concat_of_lt {x : α} {t : τ} (xs : List α) (h : t < key x) :
    (xs ++ [x]).filter (fun x => key x ≤ t) = xs.filter fun x => key x ≤ t := by
  have hdrop : [x].filter (fun x => decide (key x ≤ t)) = [] := by
    simpa using h
  rw [List.filter_append, hdrop, List.append_nil]

/-- In an ascending list an element is the latest until the time of the next one. -/
theorem latest_eq_some {xs : List α} (hascending : xs.Pairwise fun x y => key x < key y)
    {x : α} (hx : x ∈ xs) {t : τ} (hle : key x ≤ t)
    (hnext : ∀ y ∈ xs, key x < key y → t < key y) : latest key xs t = some x := by
  obtain ⟨before, after, rfl⟩ := List.append_of_mem hx
  rw [List.pairwise_append, List.pairwise_cons] at hascending
  obtain ⟨-, ⟨hafter, -⟩, hbefore⟩ := hascending
  have hsplit : before ++ x :: after = (before ++ [x]) ++ after := by simp
  rw [hsplit, latest_append]
  · simp
  · intro y hy
    rcases List.mem_append.mp hy with hy | hy
    · exact (hbefore y hy x List.mem_cons_self).le.trans hle
    · rw [List.mem_singleton.mp hy]
      exact hle
  · intro y hy
    exact hnext y (by simp [hy]) (hafter y hy)

/-- The latest element is not before any other one at or before `t`. -/
theorem exists_latest {xs : List α} (hascending : xs.Pairwise fun x y => key x < key y)
    {x : α} (hx : x ∈ xs) {t : τ} (hle : key x ≤ t) :
    ∃ y ∈ xs, latest key xs t = some y ∧ key x ≤ key y ∧ key y ≤ t := by
  have hmem : x ∈ xs.filter fun x => key x ≤ t := List.mem_filter.mpr ⟨hx, decide_eq_true hle⟩
  cases hlatest : latest key xs t with
  | none => exact absurd hle (not_le.mpr (latest_eq_none.mp hlatest x hx))
  | some y =>
      have hy : y ∈ xs.filter fun x => key x ≤ t := List.mem_of_getLast? hlatest
      obtain ⟨hin, hyle⟩ := List.mem_filter.mp hy
      refine ⟨y, hin, rfl, ?_, of_decide_eq_true hyle⟩
      obtain ⟨before, hbefore⟩ := List.getLast?_eq_some_iff.mp hlatest
      have hsorted := hascending.filter fun x => key x ≤ t
      rw [hbefore] at hmem hsorted
      rcases List.mem_append.mp hmem with hold | hlast
      · exact ((List.pairwise_append.mp hsorted).2.2 x hold y (by simp)).le
      · rw [List.mem_singleton.mp hlast]

/-- Of the elements that are put into a plain map, the last one of a key stays. -/
theorem foldl_update_apply {κ β : Type*} [DecidableEq κ] (name : α → κ) (value : α → β)
    (xs : List α) (k : κ) :
    xs.foldl (fun m x => Function.update m (name x) (some (value x))) (fun _ => none) k =
      (xs.filter fun x => name x = k).getLast?.map value := by
  induction xs using List.reverseRecOn with
  | nil => rfl
  | append_singleton xs x ih =>
      rw [List.foldl_append, List.filter_append]
      by_cases hk : name x = k
      · subst hk
        simp
      · simpa [hk, Ne.symm hk] using ih

/-- What stands in order already is not moved by sorting the whole list. -/
theorem filter_mergeSort {xs : List α} {p : α → Bool}
    (hascending : (xs.filter p).Pairwise fun x y => key x < key y) :
    (xs.mergeSort fun x y => key x ≤ key y).filter p = xs.filter p := by
  have hsorted : (xs.mergeSort fun x y => key x ≤ key y).Pairwise fun x y => key x ≤ key y := by
    have hpairwise := @List.pairwise_mergeSort α (fun x y => decide (key x ≤ key y))
      (fun x y z hxy hyz =>
        decide_eq_true ((of_decide_eq_true hxy).trans (of_decide_eq_true hyz)))
      (fun x y => by simpa using le_total (key x) (key y)) xs
    exact hpairwise.imp of_decide_eq_true
  have hperm := (List.mergeSort_perm xs fun x y => key x ≤ key y).filter p
  refine hperm.eq_of_pairwise ?_ (hsorted.filter p) (hascending.imp le_of_lt)
  intro x y hx hy hxy hyx
  have hnodup : ((xs.filter p).map key).Nodup := List.pairwise_map.mpr (hascending.imp ne_of_lt)
  exact List.inj_on_of_nodup_map hnodup (hperm.mem_iff.mp hx) hy (le_antisymm hxy hyx)

end Timeline
