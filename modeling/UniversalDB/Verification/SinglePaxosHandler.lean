import UniversalDB.Model.MultiPaxosHandler

/-! # What a call of a Paxos handler does -/

namespace UniversalDB.SinglePaxosHandler

open MultiPaxosHandler

variable {ε : Type}

/-- The handler with the promises that are counted for a proposal number. -/
def withPromises (h : SinglePaxosHandler ε) (rnd : ℕ)
    (promises : List (ℕ × PaxosLogEntry)) : SinglePaxosHandler ε :=
  { h with
    proposerState :=
      { h.proposerState with
        prepareState := h.proposerState.prepareState.assign rnd promises } }

/-- The handler with the value and the number of the votes heard for a proposal number. -/
def withVotes (h : SinglePaxosHandler ε) (learned : Bool) (vrnd : ℕ)
    (votes : PaxosLogEntry × ℕ) : SinglePaxosHandler ε :=
  { h with learnerState := ⟨learned, h.learnerState.learnedValue.assign vrnd votes⟩ }

/-- All that a call of `dispatch` can do: nothing, a promise, a count of a promise that
may open the round, an acceptance, or a count of a vote that may complete a majority. -/
inductive Handled (h : SinglePaxosHandler ε) (src : ε) :
    PaxosMessage.Content → SinglePaxosHandler ε → List (Effect ε) → Prop where
  | ignored (content : PaxosMessage.Content) : Handled h src content h []
  | promised {rnd} (hlt : h.acceptorState.rnd < rnd) :
      Handled h src (.prepare rnd) { h with acceptorState := { h.acceptorState with rnd := rnd } }
        [.send src
          (h.message (.promise rnd h.acceptorState.vrnd h.acceptorState.vval))]
  | counted {rnd vrnd vval promises} (hstate : h.proposerState.prepareState rnd = some promises)
      (hlt : promises.length + 1 < h.majorityThreshold) :
      Handled h src (.promise rnd vrnd vval) (h.withPromises rnd (promises ++ [(vrnd, vval)])) []
  | opened {rnd vrnd vval promises own}
      (hstate : h.proposerState.prepareState rnd = some promises)
      (hfull : promises.length + 1 = h.majorityThreshold)
      (hown : h.proposerState.proposal rnd = some own) :
      Handled h src (.promise rnd vrnd vval) (h.withPromises rnd (promises ++ [(vrnd, vval)]))
        [.broadcast h.configEndpoints
          (h.message (.accept rnd (proposalValue own (promises ++ [(vrnd, vval)]))))]
  | accepted {vrnd vval} (hle : h.acceptorState.rnd ≤ vrnd) :
      Handled h src (.accept vrnd vval) { h with acceptorState := ⟨vrnd, vrnd, vval⟩ }
        [.broadcast h.configEndpoints (h.message (.learn vrnd vval))]
  | heard {vrnd vval value count}
      (hvotes : (h.learnerState.learnedValue vrnd).getD (vval, 0) = (value, count))
      (hlt : count + 1 < h.majorityThreshold) :
      Handled h src (.learn vrnd vval) (h.withVotes false vrnd (value, count + 1)) []
  | learned {vrnd vval value count}
      (hvotes : (h.learnerState.learnedValue vrnd).getD (vval, 0) = (value, count))
      (hfull : count + 1 = h.majorityThreshold) :
      Handled h src (.learn vrnd vval) (h.withVotes true vrnd (value, count + 1))
        [.setEntry h.paxosLogIndex value]

variable {h h' : SinglePaxosHandler ε} {src : ε} {effects : List (Effect ε)}

theorem handled_prepare (h : SinglePaxosHandler ε) (src : ε) (rnd : ℕ) :
    Handled h src (.prepare rnd) (h.prepare src rnd).1 (h.prepare src rnd).2 := by
  unfold prepare
  split
  · rename_i hlt
    exact .promised hlt
  · exact .ignored _

theorem handled_promise {rnd vrnd : ℕ} {vval : PaxosLogEntry}
    (hcall : h.promise rnd vrnd vval = .ok (h', effects)) :
    Handled h src (.promise rnd vrnd vval) h' effects := by
  unfold promise at hcall
  cases hstate : h.proposerState.prepareState rnd with
  | none => simp [hstate] at hcall
  | some promises =>
      simp only [hstate] at hcall
      split at hcall
      · rename_i hlt
        split at hcall
        · rename_i hfull
          cases hown : h.proposerState.proposal rnd with
          | none => simp [hown] at hcall
          | some own =>
              simp only [hown] at hcall
              cases hcall
              exact .opened hstate (by simpa using hfull) hown
        · rename_i hpart
          cases hcall
          apply Handled.counted hstate
          rw [List.length_append, List.length_singleton] at hpart
          omega
      · cases hcall
        exact .ignored _

theorem handled_accept (h : SinglePaxosHandler ε) (src : ε) (vrnd : ℕ)
    (vval : PaxosLogEntry) :
    Handled h src (.accept vrnd vval) (h.accept vrnd vval).1 (h.accept vrnd vval).2 := by
  unfold accept
  split
  · rename_i hle
    exact .accepted hle
  · exact .ignored _

/-- A complete count belongs to a number that is in the map, so writing it back changes
nothing. -/
theorem withVotes_of_full {vrnd count : ℕ} {vval value : PaxosLogEntry}
    (hvotes : (h.learnerState.learnedValue vrnd).getD (vval, 0) = (value, count))
    (hfull : h.majorityThreshold ≤ count) (hlearned : h.learnerState.learned = false) :
    h.withVotes false vrnd (value, count) = h := by
  have hentry : h.learnerState.learnedValue vrnd = some (value, count) := by
    cases hvrnd : h.learnerState.learnedValue vrnd with
    | none =>
        rw [hvrnd] at hvotes
        cases hvotes
        simp [majorityThreshold] at hfull
    | some votes =>
        rw [hvrnd] at hvotes
        simpa using hvotes
  rw [withVotes, KeyMap.assign_eq_self hentry, ← hlearned]

theorem handled_learn (h : SinglePaxosHandler ε) (src : ε) (vrnd : ℕ)
    (vval : PaxosLogEntry) :
    Handled h src (.learn vrnd vval) (h.learn vrnd vval).1 (h.learn vrnd vval).2 := by
  cases hlearned : h.learnerState.learned with
  | true =>
      simp only [learn, hlearned, if_true]
      exact .ignored _
  | false =>
      cases hvotes : (h.learnerState.learnedValue vrnd).getD (vval, 0) with
      | mk value count =>
          simp only [learn, hlearned, hvotes, Bool.false_eq_true, if_false]
          split
          · rename_i hlt
            split
            · rename_i hfull
              exact .learned hvotes hfull
            · exact .heard hvotes (by omega)
          · rename_i hfull
            have hsame := withVotes_of_full hvotes (by omega) hlearned
            rw [withVotes] at hsame
            rw [hsame]
            exact .ignored _

theorem handled_of_dispatch {content : PaxosMessage.Content}
    (hcall : dispatch h src content = .ok (h', effects)) :
    Handled h src content h' effects := by
  cases content with
  | notSet =>
      cases hcall
      exact .ignored _
  | prepare rnd =>
      have hhandled := handled_prepare h src rnd
      rwa [Except.ok.inj hcall] at hhandled
  | promise rnd vrnd vval => exact handled_promise hcall
  | accept vrnd vval =>
      have hhandled := handled_accept h src vrnd vval
      rwa [Except.ok.inj hcall] at hhandled
  | learn vrnd vval =>
      have hhandled := handled_learn h src vrnd vval
      rwa [Except.ok.inj hcall] at hhandled

/-- What a call leaves alone, and where it writes to the log. -/
theorem Handled.frame {content : PaxosMessage.Content}
    (hhandled : Handled h src content h' effects) :
    h'.constants = h.constants ∧ h'.paxosLogIndex = h.paxosLogIndex ∧
      h'.configEndpoints = h.configEndpoints ∧
      ∀ index entry, .setEntry index entry ∈ effects → index = h.paxosLogIndex := by
  cases hhandled with
  | learned hvotes hfull =>
      refine ⟨rfl, rfl, rfl, ?_⟩
      intro index entry hmem
      cases List.mem_singleton.mp hmem
      rfl
  | _ => exact ⟨rfl, rfl, rfl, by simp⟩

/-! ## Calls that are not ignored -/

theorem prepare_of_lt (src : ε) {rnd : ℕ} (hlt : h.acceptorState.rnd < rnd) :
    h.prepare src rnd = ({ h with acceptorState := { h.acceptorState with rnd := rnd } },
      [.send src
        (h.message (.promise rnd h.acceptorState.vrnd h.acceptorState.vval))]) := by
  rw [prepare, if_pos hlt]

theorem promise_of_lt {rnd : ℕ} {promises : List (ℕ × PaxosLogEntry)} {own : PaxosLogEntry}
    (hstate : h.proposerState.prepareState rnd = some promises)
    (hown : h.proposerState.proposal rnd = some own)
    (hlt : promises.length < h.majorityThreshold) (vrnd : ℕ) (vval : PaxosLogEntry) :
    h.promise rnd vrnd vval = .ok (h.withPromises rnd (promises ++ [(vrnd, vval)]),
      if promises.length + 1 = h.majorityThreshold then
        [.broadcast h.configEndpoints
          (h.message (.accept rnd (proposalValue own (promises ++ [(vrnd, vval)]))))]
      else []) := by
  simp only [promise, hstate, hown, hlt, if_true, List.length_append, List.length_singleton]
  split <;> rfl

theorem accept_of_le {vrnd : ℕ} (hle : h.acceptorState.rnd ≤ vrnd) (vval : PaxosLogEntry) :
    h.accept vrnd vval = ({ h with acceptorState := ⟨vrnd, vrnd, vval⟩ },
      [.broadcast h.configEndpoints (h.message (.learn vrnd vval))]) := by
  rw [accept, if_pos hle]

theorem learn_of_lt {vrnd count : ℕ} {vval value : PaxosLogEntry}
    (hlearned : h.learnerState.learned = false)
    (hvotes : (h.learnerState.learnedValue vrnd).getD (vval, 0) = (value, count))
    (hlt : count < h.majorityThreshold) :
    h.learn vrnd vval =
      (h.withVotes (count + 1 = h.majorityThreshold) vrnd (value, count + 1),
        if count + 1 = h.majorityThreshold then [.setEntry h.paxosLogIndex value] else []) := by
  simp only [learn, hlearned, hvotes, hlt, Bool.false_eq_true, if_true, if_false]
  split
  · rename_i hfull
    simp [withVotes, hfull]
  · rename_i hpart
    simp [withVotes, hpart]

end UniversalDB.SinglePaxosHandler
