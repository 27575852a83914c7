import Mathlib.Data.Finset.Card
import Mathlib.Data.Fintype.Card

/-! # Voting by majorities

Rounds are numbered from one, a voter votes at most for the value a round is opened
with, and every round is opened with a value that is safe for the rounds below it.
Then two values with a majority each are equal. -/

namespace Voting

variable {N V : Type*} [Fintype N]

/-- Any two majorities share a voter. -/
theorem exists_mem_of_majorities {q : ℕ} (hq : Fintype.card N < 2 * q)
    {A B : Finset N} (hA : q ≤ A.card) (hB : q ≤ B.card) : ∃ a, a ∈ A ∧ a ∈ B := by
  classical
  have hcard : (Finset.univ : Finset N).card < A.card + B.card := by
    rw [Finset.card_univ]
    omega
  obtain ⟨a, ha⟩ := Finset.inter_nonempty_of_card_lt_card_add_card
    (Finset.subset_univ A) (Finset.subset_univ B) hcard
  exact ⟨a, Finset.mem_of_mem_inter_left ha, Finset.mem_of_mem_inter_right ha⟩

/-- The same for majorities given as duplicate-free lists. -/
theorem exists_mem_of_majority_lists {q : ℕ} (hq : Fintype.card N < 2 * q)
    {as bs : List N} (has : as.Nodup) (hbs : bs.Nodup) (hA : q ≤ as.length)
    (hB : q ≤ bs.length) : ∃ a, a ∈ as ∧ a ∈ bs := by
  classical
  have hA' : q ≤ as.toFinset.card := by rwa [List.toFinset_card_of_nodup has]
  have hB' : q ≤ bs.toFinset.card := by rwa [List.toFinset_card_of_nodup hbs]
  obtain ⟨a, ha, hb⟩ := exists_mem_of_majorities hq hA' hB'
  exact ⟨a, List.mem_toFinset.mp ha, List.mem_toFinset.mp hb⟩

omit [Fintype N] in
/-- The same among the members of a list, which may hold duplicates. -/
theorem exists_mem_of_sublists {members : List N} {q : ℕ} (hq : members.length < 2 * q)
    {as bs : List N} (has : as.Nodup) (hbs : bs.Nodup) (hsubA : as ⊆ members)
    (hsubB : bs ⊆ members) (hA : q ≤ as.length) (hB : q ≤ bs.length) : ∃ a, a ∈ as ∧ a ∈ bs := by
  classical
  have hcard : members.toFinset.card < as.toFinset.card + bs.toFinset.card := by
    rw [List.toFinset_card_of_nodup has, List.toFinset_card_of_nodup hbs]
    have hle := members.toFinset_card_le
    omega
  have hsub : ∀ {cs : List N}, cs ⊆ members → cs.toFinset ⊆ members.toFinset := by
    intro cs hcs a ha
    exact List.mem_toFinset.mpr (hcs (List.mem_toFinset.mp ha))
  obtain ⟨a, ha⟩ := Finset.inter_nonempty_of_card_lt_card_add_card (hsub hsubA) (hsub hsubB) hcard
  rw [Finset.mem_inter, List.mem_toFinset, List.mem_toFinset] at ha
  exact ⟨a, ha⟩

/-- At least `q` voters satisfy `P`. -/
def Quorum (q : ℕ) (P : N → Prop) : Prop :=
  ∃ Q : Finset N, q ≤ Q.card ∧ ∀ a ∈ Q, P a

omit [Fintype N] in
theorem Quorum.mono {q : ℕ} {P P' : N → Prop} (h : Quorum q P) (himp : ∀ a, P a → P' a) :
    Quorum q P' := by
  obtain ⟨Q, hQ, hP⟩ := h
  exact ⟨Q, hQ, fun a ha => himp a (hP a ha)⟩

omit [Fintype N] in
theorem Quorum.of_list {q : ℕ} {P : N → Prop} {as : List N} (hnodup : as.Nodup)
    (hlength : q ≤ as.length) (hP : ∀ a ∈ as, P a) : Quorum q P := by
  classical
  refine ⟨as.toFinset, ?_, fun a ha => hP a (List.mem_toFinset.mp ha)⟩
  rwa [List.toFinset_card_of_nodup hnodup]

/-- `v` is safe for round `r`: a quorum of voters shows a bound `k` on its votes below
`r`, and either there is no such vote or `v` was voted for in round `k` itself. -/
def SafeAt (q : ℕ) (voted : N → ℕ → V → Prop) (r : ℕ) (v : V) : Prop :=
  ∃ k, Quorum q (fun a => ∀ l u, voted a l u → l < r → l ≤ k) ∧
    (k = 0 ∨ (k < r ∧ ∃ b, voted b k v))

/-- The rules of voting. -/
structure Rules (q : ℕ) (voted : N → ℕ → V → Prop) (opened : ℕ → V → Prop) : Prop where
  majority : Fintype.card N < 2 * q
  voted_pos : ∀ a r v, voted a r v → 0 < r
  voted_opened : ∀ a r v, voted a r v → opened r v
  opened_unique : ∀ r v w, opened r v → opened r w → v = w
  opened_safe : ∀ r v, opened r v → SafeAt q voted r v

/-- Once a value has a quorum, every later round is opened with it. -/
theorem Rules.opened_eq {q : ℕ} {voted : N → ℕ → V → Prop} {opened : ℕ → V → Prop}
    (h : Rules q voted opened) {r : ℕ} {v : V} (hchosen : Quorum q (voted · r v)) :
    ∀ r' w, r ≤ r' → opened r' w → w = v := by
  obtain ⟨Q, hQ, hvotes⟩ := hchosen
  intro r'
  induction r' using Nat.strong_induction_on with
  | h r' ih =>
    intro w hle hw
    obtain ⟨k, ⟨Q', hQ', hbound⟩, hk⟩ := h.opened_safe r' w hw
    -- a voter of the quorum for `v` that also answered for round `r'`
    obtain ⟨a, haQ, haQ'⟩ := exists_mem_of_majorities h.majority hQ hQ'
    have hvote := hvotes a haQ
    rcases Nat.eq_or_lt_of_le hle with rfl | hlt
    · exact h.opened_unique r w v hw (h.voted_opened a r v hvote)
    · have hrk : r ≤ k := hbound a haQ' r v hvote hlt
      have hpos := h.voted_pos a r v hvote
      rcases hk with rfl | ⟨hkr, b, hb⟩
      · omega
      · exact ih k hkr w hrk (h.voted_opened b k w hb)

/-- Two values with a quorum are equal. -/
theorem Rules.chosen_unique {q : ℕ} {voted : N → ℕ → V → Prop} {opened : ℕ → V → Prop}
    (h : Rules q voted opened) {r r' : ℕ} {v w : V} (hv : Quorum q (voted · r v))
    (hw : Quorum q (voted · r' w)) : v = w := by
  have hopened : ∀ {l u}, Quorum q (voted · l u) → opened l u := by
    rintro l u ⟨Q, hQ, hvotes⟩
    obtain ⟨a, ha, -⟩ := exists_mem_of_majorities h.majority hQ hQ
    exact h.voted_opened a l u (hvotes a ha)
  rcases Nat.le_total r r' with hle | hle
  · exact (h.opened_eq hv r' w hle (hopened hw)).symm
  · exact h.opened_eq hw r v hle (hopened hv)

end Voting
