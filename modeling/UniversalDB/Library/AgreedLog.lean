import Mathlib.Data.List.Basic

/-! # A log that several parties agree on

Parties propose entries for positions, and position after position is filled with one of
the proposals for it. -/

structure AgreedLog (E : Type*) where
  entries : List E
  proposals : List (ℕ × E)

namespace AgreedLog

variable {E : Type*}

def empty : AgreedLog E := ⟨[], []⟩

def propose (L : AgreedLog E) (index : ℕ) (e : E) : AgreedLog E :=
  { L with proposals := L.proposals ++ [(index, e)] }

/-- Makes a proposal, if there is one. -/
def offer (L : AgreedLog E) : Option (ℕ × E) → AgreedLog E
  | none => L
  | some (index, e) => L.propose index e

/-- Fills the next position with the proposal at `k`, if it was made for this
position. -/
def choose (L : AgreedLog E) (k : ℕ) : Option (AgreedLog E) :=
  match L.proposals[k]? with
  | none => none
  | some (index, e) =>
      if index = L.entries.length then some { L with entries := L.entries ++ [e] } else none

theorem entries_offer (L : AgreedLog E) (proposal : Option (ℕ × E)) :
    (L.offer proposal).entries = L.entries := by
  cases proposal with
  | none => rfl
  | some proposal => rfl

theorem choose_cases {L L' : AgreedLog E} {k : ℕ} (h : L.choose k = some L') :
    ∃ e, (L.entries.length, e) ∈ L.proposals ∧ L'.entries = L.entries ++ [e] ∧
      L'.proposals = L.proposals := by
  simp only [choose] at h
  split at h
  · cases h
  · rename_i index e hk
    split at h
    · rename_i hindex
      subst index
      cases h
      exact ⟨e, List.mem_of_getElem? hk, rfl, rfl⟩
    · cases h

/-- What has been proposed for the next position can be chosen. -/
theorem exists_choose {L : AgreedLog E} {e : E} (h : (L.entries.length, e) ∈ L.proposals) :
    ∃ k, L.choose k = some { L with entries := L.entries ++ [e] } := by
  obtain ⟨k, hk⟩ := List.mem_iff_getElem?.mp h
  refine ⟨k, ?_⟩
  simp [choose, hk]

/-- A property of an entry and the entries before it that holds of every proposal when it
is made. It is enough to look at the prefix the proposer has seen, which does not change
any more. -/
structure Pinned (ok : List E → E → Prop) (L : AgreedLog E) : Prop where
  proposals : ∀ index e, (index, e) ∈ L.proposals →
    index ≤ L.entries.length ∧ ok (L.entries.take index) e
  entries : ∀ index e, L.entries[index]? = some e → ok (L.entries.take index) e

variable {ok ok' : List E → E → Prop} {L L' : AgreedLog E}

theorem pinned_empty : Pinned ok (empty : AgreedLog E) := by
  constructor <;> simp [empty]

theorem Pinned.mono (h : Pinned ok L) (hok : ∀ before e, ok before e → ok' before e) :
    Pinned ok' L := by
  constructor
  · intro index e hmem
    obtain ⟨hindex, he⟩ := h.proposals index e hmem
    exact ⟨hindex, hok _ e he⟩
  · exact fun index e he => hok _ e (h.entries index e he)

theorem Pinned.propose (h : Pinned ok L) {index : ℕ} {e : E}
    (hindex : index ≤ L.entries.length) (hok : ok (L.entries.take index) e) :
    Pinned ok (L.propose index e) := by
  constructor
  · intro j e' hmem
    rcases List.mem_append.mp hmem with hold | hnew
    · exact h.proposals j e' hold
    · cases List.mem_singleton.mp hnew
      exact ⟨hindex, hok⟩
  · exact h.entries

theorem Pinned.choose (h : Pinned ok L) {k : ℕ} (hchoose : L.choose k = some L') :
    Pinned ok L' := by
  obtain ⟨e, hmem, hentries, hproposals⟩ := choose_cases hchoose
  have htake : ∀ index ≤ L.entries.length, L'.entries.take index = L.entries.take index := by
    intro index hindex
    rw [hentries, List.take_append_of_le_length hindex]
  constructor
  · intro index e' hp
    rw [hproposals] at hp
    obtain ⟨hindex, hok⟩ := h.proposals index e' hp
    refine ⟨?_, ?_⟩
    · rw [hentries, List.length_append]
      omega
    · rw [htake index hindex]
      exact hok
  · intro index e' hindex
    rw [hentries] at hindex
    rcases Nat.lt_trichotomy index L.entries.length with hlt | heq | hgt
    · rw [List.getElem?_append_left hlt] at hindex
      rw [htake index (Nat.le_of_lt hlt)]
      exact h.entries index e' hindex
    · subst index
      rw [List.getElem?_concat_length] at hindex
      cases hindex
      rw [htake _ (Nat.le_refl _)]
      exact (h.proposals _ e hmem).2
    · rw [List.getElem?_eq_none (by simp; omega)] at hindex
      cases hindex

end AgreedLog
