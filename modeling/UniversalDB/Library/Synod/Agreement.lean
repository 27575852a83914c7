import UniversalDB.Library.Synod.Learning

/-! # Validity and agreement -/

namespace Synod

variable {N V : Type*} [Fintype N] [DecidableEq N]

/-! ## Validity -/

/-- A selection rule that only ever returns the proposer's own value or a reported vote. -/
def SelectsReported (select : V → List (ℕ × V) → V) : Prop :=
  ∀ own ps, select own ps = own ∨ ∃ x ∈ ps, 0 < x.1 ∧ x.2 = select own ps

/-- Every value in the protocol has been proposed. -/
structure ValidInv (trace : List (Event N V)) (s : State N V) : Prop where
  proposal : ∀ p r v, s.proposal p r = some v → .proposed p v ∈ trace
  opened : ∀ p r v, .opened p r v ∈ trace → ∃ i, .proposed i v ∈ trace

omit [Fintype N] [DecidableEq N] in
theorem ValidInv.frame {trace events : List (Event N V)} {s s' : State N V}
    (h : ValidInv trace s) (hproposal : s'.proposal = s.proposal)
    (hevents : ∀ p r v, .opened p r v ∉ events) : ValidInv (trace ++ events) s' := by
  constructor
  · rw [hproposal]
    intro p r v hv
    exact List.mem_append_left _ (h.proposal p r v hv)
  · intro p r v hmem
    obtain ⟨i, hi⟩ := h.opened p r v ((List.mem_append.mp hmem).resolve_right (hevents p r v))
    exact ⟨i, List.mem_append_left _ hi⟩

omit [Fintype N] in
theorem ValidInv.propose {trace : List (Event N V)} {s : State N V} (h : ValidInv trace s)
    (i : N) (r : ℕ) (v : V) {p : N} {l : ℕ} {u : V}
    (hu : Function.update s.proposal i ((s.proposal i).insert r v) p l = some u) :
    .proposed p u ∈ trace ++ [.proposed i v] := by
  by_cases hp : p = i
  · subst p
    rw [Function.update_self, KeyMap.insert_apply] at hu
    split at hu
    · cases hold : s.proposal i r with
      | none =>
          obtain rfl : v = u := by simpa [hold] using hu
          simp
      | some u' =>
          obtain rfl : u' = u := by simpa [hold] using hu
          exact List.mem_append_left _ (h.proposal i r u' hold)
    · exact List.mem_append_left _ (h.proposal i l u hu)
  · rw [Function.update_of_ne hp] at hu
    exact List.mem_append_left _ (h.proposal p l u hu)

/-- The value that is selected from promises has been proposed: a reported vote was cast in
a round that was opened before. -/
theorem ValidInv.selected {P : Protocol V} (hselect : SelectsReported P.select)
    {trace : List (Event N V)} {s : State N V} (h : ValidInv trace s)
    (hrun : P.system.Run trace s) {p : N} {r : ℕ} {own : V}
    (hown : s.proposal p r = some own) {ps : List (N × ℕ × V)}
    (hmem : ∀ x ∈ ps, .promised x.1 p r x.2.1 x.2.2 ∈ trace) :
    ∃ i, .proposed i (P.select own (ps.map Prod.snd)) ∈ trace := by
  rcases hselect own (ps.map Prod.snd) with heq | ⟨x, hx, hpos, heq⟩
  · rw [heq]
    exact ⟨p, h.proposal p r own hown⟩
  · obtain ⟨y, hy, rfl⟩ := List.mem_map.mp hx
    have hvote := (acceptorInv_of_run hrun).report_mem _ _ _ _ _ (hmem y hy) hpos
    obtain ⟨p', hp'⟩ := (sentInv_of_run hrun).accepted_opened _ _ _ hvote
    rw [← heq]
    exact h.opened p' _ _ hp'

theorem validInv_of_run {P : Protocol V} (hselect : SelectsReported P.select)
    {trace : List (Event N V)} {s : State N V} (h : P.system.Run trace s) :
    ValidInv trace s := by
  apply h.invariant
  · rintro s rfl
    constructor <;> simp [State.initial]
  · intro trace s events s' hrun ih hstep
    cases hstep with
    | propose i r v =>
        constructor
        · intro p l u hu
          exact ih.propose i r v hu
        · intro p l u hmem
          obtain ⟨j, hj⟩ := ih.opened p l u (by simpa using hmem)
          exact ⟨j, List.mem_append_left _ hj⟩
    | @«open» a p r k w ps own rest hnet hps _ hown _ =>
        have hrecord : PromiseInv (trace ++ [])
            { s with
              promises :=
                Function.update s.promises p ((s.promises p).assign r (ps ++ [(a, k, w)]))
              network := rest } :=
          (promiseInv_of_run hrun).record (sentInv_of_run hrun) hnet hps rfl fun _ _ _ => rfl
        have hmem := hrecord.mem p r (ps ++ [(a, k, w)]) (by simp)
        rw [List.append_nil] at hmem
        obtain ⟨i, hi⟩ := ih.selected hselect hrun hown hmem
        constructor
        · intro q l u hu
          exact List.mem_append_left _ (ih.proposal q l u hu)
        · intro q l u hopened
          simp only [List.mem_append, List.mem_singleton, Event.opened.injEq] at hopened
          rcases hopened with hopened | ⟨-, -, rfl⟩
          · obtain ⟨j, hj⟩ := ih.opened q l u hopened
            exact ⟨j, List.mem_append_left _ hj⟩
          · exact ⟨i, List.mem_append_left _ hi⟩
    | lose => exact ih.frame rfl (by simp)
    | promise => exact ih.frame rfl (by simp)
    | count => exact ih.frame rfl (by simp)
    | accept => exact ih.frame rfl (by simp)
    | hear => exact ih.frame rfl (by simp)
    | learn => exact ih.frame rfl (by simp)

omit [DecidableEq N] in
theorem quorum_pos {P : Protocol V} (hq : Fintype.card N < 2 * P.quorum) : 0 < P.quorum := by
  omega

/-- What is learned was voted for by a quorum, hence opened. -/
theorem opened_of_learned {P : Protocol V} (hq : Fintype.card N < 2 * P.quorum)
    {trace : List (Event N V)} {s : State N V} (h : P.system.Run trace s) {d : N} {r : ℕ}
    {v : V} (hv : .learned d r v ∈ trace) : ∃ p, .opened p r v ∈ trace := by
  obtain ⟨Q, hQ, hvotes⟩ := (learnInv_of_run hq h).learned d r v hv
  obtain ⟨a, ha⟩ := Finset.card_pos.mp ((quorum_pos hq).trans_le hQ)
  exact (sentInv_of_run h).accepted_opened a r v (hvotes a ha)

/-- A learned value was proposed by some node. -/
theorem proposed_of_learned {P : Protocol V} (hq : Fintype.card N < 2 * P.quorum)
    (hselect : SelectsReported P.select) {trace : List (Event N V)} {s : State N V}
    (h : P.system.Run trace s) {d : N} {r : ℕ} {v : V} (hv : .learned d r v ∈ trace) :
    ∃ i, .proposed i v ∈ trace := by
  obtain ⟨p, hp⟩ := opened_of_learned hq h hv
  exact (validInv_of_run hselect h).opened p r v hp

/-! ## Agreement -/

/-- `v` is the value of a greatest reported vote, if any vote is reported. -/
def SelectsGreatest (v : V) (ps : List (ℕ × V)) : Prop :=
  (∀ x ∈ ps, x.1 = 0) ∨ ∃ x ∈ ps, 0 < x.1 ∧ x.2 = v ∧ ∀ y ∈ ps, y.1 ≤ x.1

/-- A protocol that opens rounds with the greatest reported vote follows the rules of
voting. -/
theorem rules_of_run {P : Protocol V} (hq : Fintype.card N < 2 * P.quorum)
    (hgreatest : ∀ own ps, P.ok ps → SelectsGreatest (P.select own ps) ps)
    {trace : List (Event N V)} {s : State N V} (h : P.system.Run trace s) :
    Voting.Rules P.quorum (fun a r v => .accepted a r v ∈ trace)
      (fun r v => ∃ p, .opened p r v ∈ trace) := by
  have hacc := acceptorInv_of_run h
  have hsent := sentInv_of_run h
  have hpromise := promiseInv_of_run h
  have hopen := openedInv_of_run hq h
  constructor
  · exact hq
  · intro a r v hvote
    obtain ⟨p, hp⟩ := hsent.accepted_opened a r v hvote
    obtain ⟨ps, own, hps, hlength, -⟩ := hopen.opened_by p r v hp
    have hpos := quorum_pos hq
    obtain ⟨x, hx⟩ := List.exists_mem_of_length_pos (hlength ▸ hpos)
    have hlt := hacc.report_lt _ _ _ _ _ (hpromise.mem p r ps hps x hx)
    omega
  · intro a r v hvote
    exact hsent.accepted_opened a r v hvote
  · rintro r v w ⟨p, hp⟩ ⟨p', hp'⟩
    exact (hopen.opened_unique hp hp').2
  · rintro r v ⟨p, hp⟩
    obtain ⟨ps, own, hps, hlength, -, rfl, hok⟩ := hopen.opened_by p r v hp
    have hmem := hpromise.mem p r ps hps
    have hquorum : ∀ k, (∀ x ∈ ps, x.2.1 ≤ k) → Voting.Quorum P.quorum fun a =>
        ∀ l u, .accepted a l u ∈ trace → l < r → l ≤ k := by
      intro k hk
      refine Voting.Quorum.of_list (hpromise.nodup p r ps hps) (by simp [hlength]) ?_
      intro a ha l u hvote hlt
      obtain ⟨x, hx, rfl⟩ := List.mem_map.mp ha
      exact (hacc.report_max _ _ _ _ _ l u (hmem x hx) hvote hlt).trans (hk x hx)
    rcases hgreatest own _ hok with hzero | ⟨x, hx, hpos, heq, hmax⟩
    · refine ⟨0, hquorum 0 fun x hx => ?_, .inl rfl⟩
      exact (hzero x.2 (List.mem_map_of_mem hx)).le
    · obtain ⟨y, hy, rfl⟩ := List.mem_map.mp hx
      refine ⟨y.2.1, hquorum y.2.1 fun z hz => hmax z.2 (List.mem_map_of_mem hz), .inr ⟨?_, ?_⟩⟩
      · exact hacc.report_lt _ _ _ _ _ (hmem y hy)
      · exact ⟨y.1, heq ▸ hacc.report_mem _ _ _ _ _ (hmem y hy) hpos⟩

/-- Agreement: all learned values are equal. -/
theorem learned_unique {P : Protocol V} (hq : Fintype.card N < 2 * P.quorum)
    (hgreatest : ∀ own ps, P.ok ps → SelectsGreatest (P.select own ps) ps)
    {trace : List (Event N V)} {s : State N V} (h : P.system.Run trace s) {d d' : N}
    {r r' : ℕ} {v v' : V} (hv : .learned d r v ∈ trace) (hv' : .learned d' r' v' ∈ trace) :
    v = v' :=
  (rules_of_run hq hgreatest h).chosen_unique ((learnInv_of_run hq h).learned d r v hv)
    ((learnInv_of_run hq h).learned d' r' v' hv')

end Synod
