import UniversalDB.Verification.Group.Simulation

/-! # The promises that a proposer counts

The list of promises does not name their senders, so a history of the counted promises is
kept beside the run. A promise is on its way or has been counted, and at most once
altogether, since an acceptor answers a number at most once. -/

namespace UniversalDB.Group

open SinglePaxosHandler MultiPaxosHandler

variable {n : ℕ}

/-! ## The history of counted promises -/

structure Counted (n : ℕ) where
  acceptor : Fin n
  proposer : Fin n
  index : ℕ
  rnd : ℕ
  vote : ℕ × PaxosLogEntry
deriving DecidableEq

/-- The promise in a message that has been handled: it is counted if the list of the
promises for its number has changed. -/
def countedBy (src dst : Fin n) (index : ℕ) (h h' : SinglePaxosHandler (Fin n)) :
    PaxosMessage.Content → List (Counted n)
  | .promise rnd vrnd vval =>
      if h'.proposerState.prepareState rnd = h.proposerState.prepareState rnd then []
      else [⟨src, dst, index, rnd, (vrnd, vval)⟩]
  | _ => []

/-- What an action that leads from `s` to `s'` counts. -/
def counted (s s' : State n) : Action n → List (Counted n)
  | .deliver position =>
      match s.network[position]? with
      | some ⟨src, dst, .paxosMessage message⟩ =>
          let index := message.paxosIndex.toNat
          countedBy src dst index (s.instanceAt dst index) (s'.instanceAt dst index)
            message.content
      | _ => []
  | _ => []

/-- The group with the history of the counted promises. -/
def countingMachine (n : ℕ) : Machine (State n) (Action n) (Counted n) where
  init := State.initial n
  next s a := (next s a).map fun result => (counted s result.2 a, result.2)

/-- The promises that a proposer has counted for a number, in this order. -/
def promisesFor (p : Fin n) (index rnd : ℕ) (trace : List (Counted n)) : List (Counted n) :=
  trace.filter fun c => c.proposer = p ∧ c.index = index ∧ c.rnd = rnd

def senders (p : Fin n) (index rnd : ℕ) (trace : List (Counted n)) : List (Fin n) :=
  (promisesFor p index rnd trace).map Counted.acceptor

theorem promisesFor_append (p : Fin n) (index rnd : ℕ) (trace events : List (Counted n)) :
    promisesFor p index rnd (trace ++ events) =
      promisesFor p index rnd trace ++ promisesFor p index rnd events :=
  List.filter_append _ _

theorem senders_append (p : Fin n) (index rnd : ℕ) (trace events : List (Counted n)) :
    senders p index rnd (trace ++ events) =
      senders p index rnd trace ++ senders p index rnd events := by
  rw [senders, promisesFor_append, List.map_append]
  rfl

theorem promisesFor_of_index_ne {p : Fin n} {index rnd : ℕ} {events : List (Counted n)}
    (h : ∀ c ∈ events, c.index ≠ index) : promisesFor p index rnd events = [] := by
  rw [promisesFor, List.filter_eq_nil_iff]
  intro c hc
  simp [h c hc]

theorem countedBy_index {src dst : Fin n} {index : ℕ} {h h' : SinglePaxosHandler (Fin n)}
    {content : PaxosMessage.Content} {c : Counted n}
    (hc : c ∈ countedBy src dst index h h' content) : c.index = index := by
  cases content with
  | promise rnd vrnd vval =>
      simp only [countedBy] at hc
      split at hc
      · cases hc
      · cases List.mem_singleton.mp hc
        rfl
  | _ => cases hc

theorem countedBy_self (src dst : Fin n) (index : ℕ) (h : SinglePaxosHandler (Fin n))
    (content : PaxosMessage.Content) : countedBy src dst index h h content = [] := by
  cases content <;> simp [countedBy]

/-- Nothing is counted by instances that stay as they are. -/
theorem counted_index_ne {s s' : State n} {k : ℕ}
    (h : ∀ i, s'.instanceAt i k = s.instanceAt i k) (a : Action n) :
    ∀ c ∈ counted s s' a, c.index ≠ k := by
  intro c hc hk
  cases a with
  | deliver position =>
      simp only [counted] at hc
      split at hc
      · have hindex := countedBy_index hc
        rw [← hindex, hk, h, countedBy_self] at hc
        cases hc
      · cases hc
  | _ => cases hc

theorem counted_of_deliver {s s' : State n} {position : ℕ} {src dst : Fin n}
    {message : PaxosMessage} {k : ℕ} {h' : SinglePaxosHandler (Fin n)}
    (hpacket : s.network[position]? = some ⟨src, dst, .paxosMessage message⟩)
    (hk : message.paxosIndex.toNat = k)
    (hinstance : ∀ i, s'.instanceAt i k = if i = dst then h' else s.instanceAt i k) :
    counted s s' (.deliver position) =
      countedBy src dst k (s.instanceAt dst k) h' message.content := by
  simp [counted, hpacket, hk, hinstance]

/-! ## What a call keeps -/

/-- The lookups of `promise` find an entry for the number. -/
def Known (h : SinglePaxosHandler (Fin n)) (rnd : ℕ) : Prop :=
  (h.proposerState.prepareState rnd).isSome ∧ (h.proposerState.proposal rnd).isSome

theorem known_propose {h : SinglePaxosHandler (Fin n)} {rnd : ℕ} (hknown : Known h rnd)
    (draw : ℕ) (entry : PaxosLogEntry) : Known (h.propose draw entry).1 rnd :=
  ⟨KeyMap.isSome_insert hknown.1 _ _, KeyMap.isSome_insert hknown.2 _ _⟩

/-- A number is known from the moment on at which it is proposed. -/
theorem known_of_propose (h : SinglePaxosHandler (Fin n)) (draw : ℕ) (entry : PaxosLogEntry) :
    Known (h.propose draw entry).1 (h.nextProposalNumber draw) := by
  constructor <;> simp [SinglePaxosHandler.propose]

theorem known_handled {h h' : SinglePaxosHandler (Fin n)} {src : Fin n}
    {content : PaxosMessage.Content} {effects : List (Effect (Fin n))} {rnd : ℕ}
    (hknown : Known h rnd) (hhandled : h.Handled src content h' effects) : Known h' rnd := by
  cases hhandled with
  | counted hstate hlt => exact ⟨KeyMap.isSome_assign hknown.1 _ _, hknown.2⟩
  | «opened» hstate hfull hown => exact ⟨KeyMap.isSome_assign hknown.1 _ _, hknown.2⟩
  | _ => exact hknown

theorem rnd_le_handled {h h' : SinglePaxosHandler (Fin n)} {src : Fin n}
    {content : PaxosMessage.Content} {effects : List (Effect (Fin n))}
    (hhandled : h.Handled src content h' effects) : h.acceptorState.rnd ≤ h'.acceptorState.rnd := by
  cases hhandled with
  | promised hlt => exact hlt.le
  | accepted hle => exact hle
  | _ => exact le_rfl

section
variable {k : ℕ} {s s' : State n} {a : Action n} {shown : List (Event n)}

theorem InstanceMove.known (h : InstanceMove k s a shown s') {p : Fin n} {rnd : ℕ}
    (hknown : Known (s.instanceAt p k) rnd) : Known (s'.instanceAt p k) rnd := by
  cases h with
  | frame hinstance => rwa [hinstance]
  | propose hk hinstance =>
      rw [hinstance]
      split
      · rename_i hp
        subst p
        exact known_propose hknown _ _
      · exact hknown
  | handle hpacket hk hbody hview hcall hinstance =>
      rw [hinstance]
      split
      · rename_i hp
        subst p
        exact known_handled hknown (handled_of_dispatch hcall)
      · exact hknown

theorem InstanceMove.rnd_le (h : InstanceMove k s a shown s') (i : Fin n) :
    (s.instanceAt i k).acceptorState.rnd ≤ (s'.instanceAt i k).acceptorState.rnd := by
  cases h with
  | frame hinstance => rw [hinstance]
  | propose hk hinstance =>
      rw [hinstance]
      split
      · rename_i hi
        subst i
        exact le_rfl
      · exact le_rfl
  | handle hpacket hk hbody hview hcall hinstance =>
      rw [hinstance]
      split
      · rename_i hi
        subst i
        exact rnd_le_handled (handled_of_dispatch hcall)
      · exact le_rfl

end

/-! ## The invariant of an index -/

/-- The promises of `a` to `p` for a number that are on their way or have been counted. -/
noncomputable def answers (k : ℕ) (trace : List (Counted n)) (s : State n) (a p : Fin n)
    (rnd : ℕ) : ℕ :=
  Synod.flying (networkView k s.network) (Synod.Packet.IsPromise a p rnd) +
    (senders p k rnd trace).count a

structure IndexInv (k : ℕ) (trace : List (Counted n)) (s : State n) : Prop where
  prepared : ∀ p a rnd, ⟨p, a, .prepare rnd⟩ ∈ networkView k s.network →
    Known (s.instanceAt p k) rnd
  promised : ∀ a p rnd vrnd vval, ⟨a, p, .promise rnd vrnd vval⟩ ∈ networkView k s.network →
    Known (s.instanceAt p k) rnd
  once : ∀ a p rnd, answers k trace s a p rnd ≤ 1
  answered : ∀ a p rnd, 0 < answers k trace s a p rnd →
    rnd ≤ (s.instanceAt a k).acceptorState.rnd
  recorded : ∀ p rnd, ((s.instanceAt p k).proposerState.prepareState rnd).getD [] =
    (promisesFor p k rnd trace).map Counted.vote

section
variable {k : ℕ} {s s' : State n} {action : Action n} {shown : List (Event n)}
  {trace events : List (Counted n)}

/-- A step keeps the invariant if it asks only with numbers that it knows, if it answers
only above what has been answered, and if its history is what it adds to the lists. -/
theorem IndexInv.step (h : IndexInv k trace s) (hmove : InstanceMove k s action shown s')
    (hprepared : ∀ p a rnd, ⟨p, a, .prepare rnd⟩ ∈ networkView k s'.network →
      ⟨p, a, .prepare rnd⟩ ∈ networkView k s.network ∨ Known (s'.instanceAt p k) rnd)
    (hpromised : ∀ a p rnd vrnd vval,
      ⟨a, p, .promise rnd vrnd vval⟩ ∈ networkView k s'.network →
      ⟨a, p, .promise rnd vrnd vval⟩ ∈ networkView k s.network ∨
        Known (s'.instanceAt p k) rnd)
    (hanswers : ∀ a p rnd, answers k (trace ++ events) s' a p rnd ≤ answers k trace s a p rnd ∨
      (answers k (trace ++ events) s' a p rnd ≤ 1 ∧
        rnd ≤ (s'.instanceAt a k).acceptorState.rnd))
    (hrecorded : ∀ p rnd, ((s'.instanceAt p k).proposerState.prepareState rnd).getD [] =
      ((s.instanceAt p k).proposerState.prepareState rnd).getD [] ++
        (promisesFor p k rnd events).map Counted.vote) :
    IndexInv k (trace ++ events) s' := by
  constructor
  · intro p a rnd hmem
    rcases hprepared p a rnd hmem with hmem | hknown
    · exact hmove.known (h.prepared p a rnd hmem)
    · exact hknown
  · intro a p rnd vrnd vval hmem
    rcases hpromised a p rnd vrnd vval hmem with hmem | hknown
    · exact hmove.known (h.promised a p rnd vrnd vval hmem)
    · exact hknown
  · intro a p rnd
    rcases hanswers a p rnd with hle | ⟨hone, -⟩
    · exact hle.trans (h.once a p rnd)
    · exact hone
  · intro a p rnd hpos
    rcases hanswers a p rnd with hle | ⟨-, hrnd⟩
    · exact (h.answered a p rnd (hpos.trans_le hle)).trans (hmove.rnd_le a)
    · exact hrnd
  · intro p rnd
    rw [hrecorded, h.recorded, promisesFor_append, List.map_append]

/-- A packet that neither answers nor asks with a number that its sender does not know. -/
def Harmless (k : ℕ) (s : State n) (packet : Synod.Packet (Fin n) PaxosLogEntry) : Prop :=
  match packet.body with
  | .prepare rnd => Known (s.instanceAt packet.src k) rnd
  | .promise _ _ _ => False
  | .accept _ _ => True
  | .learn _ _ => True

theorem harmless_broadcast {src : Fin n} {message : PaxosMessage}
    {body : Synod.Body PaxosLogEntry} (hindex : message.paxosIndex.toNat = k)
    (hbody : contentView message.content = some body)
    (hharmless : ∀ dst, Harmless k s ⟨src, dst, body⟩) :
    ∀ packet ∈ networkView k (outgoing src (.broadcast (List.finRange n) message)),
      Harmless k s packet := by
  rw [networkView_broadcast k src message hindex hbody]
  rintro ⟨s, d, b⟩ hmem
  obtain ⟨rfl, rfl⟩ := Synod.mem_broadcast.mp hmem
  exact hharmless d

theorem flying_of_harmless {sent : Multiset (Synod.Packet (Fin n) PaxosLogEntry)}
    (hsent : ∀ packet ∈ sent, Harmless k s packet) (a p : Fin n) (rnd : ℕ) :
    Synod.flying sent (Synod.Packet.IsPromise a p rnd) = 0 := by
  rw [Synod.flying_eq_zero]
  rintro ⟨src, dst, body⟩ hmem ⟨-, -, vrnd, vval, rfl⟩
  exact hsent _ hmem

theorem answers_append (a p : Fin n) (rnd : ℕ) :
    answers k (trace ++ events) s a p rnd =
      answers k trace s a p rnd + (senders p k rnd events).count a := by
  rw [answers, answers, senders_append, List.count_append, Nat.add_assoc]

theorem senders_of_index_ne (hevents : ∀ c ∈ events, c.index ≠ k) (p : Fin n) (rnd : ℕ) :
    senders p k rnd events = [] := by
  rw [senders, promisesFor_of_index_ne hevents]
  rfl

/-- A step by which no promise is sent or counted. -/
theorem IndexInv.quiet (h : IndexInv k trace s) (hmove : InstanceMove k s action shown s')
    {rest sent : Multiset (Synod.Packet (Fin n) PaxosLogEntry)}
    (hrest : rest ≤ networkView k s.network) (hnet : networkView k s'.network = rest + sent)
    (hsent : ∀ packet ∈ sent, Harmless k s' packet) (hevents : ∀ c ∈ events, c.index ≠ k)
    (hlists : ∀ p rnd, ((s'.instanceAt p k).proposerState.prepareState rnd).getD [] =
      ((s.instanceAt p k).proposerState.prepareState rnd).getD []) :
    IndexInv k (trace ++ events) s' := by
  refine h.step hmove ?_ ?_ ?_ ?_
  · intro p a rnd hmem
    rw [hnet] at hmem
    rcases Multiset.mem_add.mp hmem with hmem | hmem
    · exact .inl (Multiset.mem_of_le hrest hmem)
    · exact .inr (hsent _ hmem)
  · intro a p rnd vrnd vval hmem
    rw [hnet] at hmem
    rcases Multiset.mem_add.mp hmem with hmem | hmem
    · exact .inl (Multiset.mem_of_le hrest hmem)
    · exact (hsent _ hmem).elim
  · intro a p rnd
    left
    rw [answers_append, senders_of_index_ne hevents, List.count_nil, Nat.add_zero, answers,
      answers, hnet, Synod.flying_add, flying_of_harmless hsent, Nat.add_zero]
    exact Nat.add_le_add_right (Synod.flying_le_of_le hrest _) _
  · intro p rnd
    rw [hlists, promisesFor_of_index_ne hevents, List.map_nil, List.append_nil]

/-- An acceptor answers a number above all that it has answered. -/
theorem IndexInv.answer (h : IndexInv k trace s) (hmove : InstanceMove k s action shown s')
    {p a : Fin n} {rnd vrnd : ℕ} {vval : PaxosLogEntry}
    {rest : Multiset (Synod.Packet (Fin n) PaxosLogEntry)}
    (hview : networkView k s.network = ⟨p, a, .prepare rnd⟩ ::ₘ rest)
    (hnet : networkView k s'.network = rest + {⟨a, p, .promise rnd vrnd vval⟩})
    (hlt : (s.instanceAt a k).acceptorState.rnd < rnd)
    (hrnd : (s'.instanceAt a k).acceptorState.rnd = rnd)
    (hlists : ∀ p rnd, ((s'.instanceAt p k).proposerState.prepareState rnd).getD [] =
      ((s.instanceAt p k).proposerState.prepareState rnd).getD []) :
    IndexInv k trace s' := by
  rw [← List.append_nil trace]
  refine h.step hmove ?_ ?_ ?_ ?_
  · intro q b r hmem
    rw [hnet, Multiset.mem_add, Multiset.mem_singleton] at hmem
    rcases hmem with hmem | hmem
    · rw [hview]
      exact .inl (Multiset.mem_cons_of_mem hmem)
    · cases hmem
  · intro b q r v w hmem
    rw [hnet, Multiset.mem_add, Multiset.mem_singleton] at hmem
    rcases hmem with hmem | hmem
    · rw [hview]
      exact .inl (Multiset.mem_cons_of_mem hmem)
    · cases hmem
      have hknown := h.prepared p a rnd (by rw [hview]; exact Multiset.mem_cons_self _ _)
      exact .inr (hmove.known hknown)
  · intro b q r
    rw [List.append_nil]
    have hle : Synod.flying rest (Synod.Packet.IsPromise b q r) ≤
        Synod.flying (networkView k s.network) (Synod.Packet.IsPromise b q r) := by
      rw [hview]
      exact Synod.flying_le_cons _ _ _
    by_cases heq : b = a ∧ q = p ∧ r = rnd
    · obtain ⟨rfl, rfl, rfl⟩ := heq
      have hzero : answers k trace s b q r = 0 := by
        by_contra hne
        exact absurd (h.answered b q r (Nat.pos_of_ne_zero hne)) (Nat.not_le_of_gt hlt)
      have hone := Synod.flying_singleton_le (⟨b, q, .promise r vrnd vval⟩ : Synod.Packet _ _)
        (Synod.Packet.IsPromise b q r)
      refine .inr ⟨?_, hrnd.ge⟩
      rw [answers, hnet, Synod.flying_add]
      rw [answers] at hzero
      omega
    · have hnone : Synod.flying ({⟨a, p, .promise rnd vrnd vval⟩} :
          Multiset (Synod.Packet (Fin n) PaxosLogEntry)) (Synod.Packet.IsPromise b q r) = 0 := by
        apply Synod.flying_singleton_of_neg
        rintro ⟨rfl, rfl, v, w, hbody⟩
        cases hbody
        exact heq ⟨rfl, rfl, rfl⟩
      left
      rw [answers, answers, hnet, Synod.flying_add, hnone, Nat.add_zero]
      exact Nat.add_le_add_right hle _
  · intro q r
    rw [hlists]
    simp [promisesFor]

/-- A promise that is counted is no longer on its way. -/
theorem IndexInv.count (h : IndexInv k trace s) (hmove : InstanceMove k s action shown s')
    {a p : Fin n} {rnd vrnd : ℕ} {vval : PaxosLogEntry}
    {rest sent : Multiset (Synod.Packet (Fin n) PaxosLogEntry)}
    (hview : networkView k s.network = ⟨a, p, .promise rnd vrnd vval⟩ ::ₘ rest)
    (hnet : networkView k s'.network = rest + sent)
    (hsent : ∀ packet ∈ sent, Harmless k s' packet)
    (hlists : ∀ q r, ((s'.instanceAt q k).proposerState.prepareState r).getD [] =
      ((s.instanceAt q k).proposerState.prepareState r).getD [] ++
        if p = q ∧ rnd = r then [(vrnd, vval)] else []) :
    IndexInv k (trace ++ [⟨a, p, k, rnd, (vrnd, vval)⟩]) s' := by
  have hpromises : ∀ q r, promisesFor q k r [⟨a, p, k, rnd, (vrnd, vval)⟩] =
      if p = q ∧ rnd = r then [⟨a, p, k, rnd, (vrnd, vval)⟩] else [] := by
    intro q r
    by_cases heq : p = q ∧ rnd = r
    · simp [promisesFor, heq]
    · simp [promisesFor, heq]
  refine h.step hmove ?_ ?_ ?_ ?_
  · intro q b r hmem
    rw [hnet] at hmem
    rcases Multiset.mem_add.mp hmem with hmem | hmem
    · rw [hview]
      exact .inl (Multiset.mem_cons_of_mem hmem)
    · exact .inr (hsent _ hmem)
  · intro b q r v w hmem
    rw [hnet] at hmem
    rcases Multiset.mem_add.mp hmem with hmem | hmem
    · rw [hview]
      exact .inl (Multiset.mem_cons_of_mem hmem)
    · exact (hsent _ hmem).elim
  · intro b q r
    left
    have hle := Synod.flying_le_cons ⟨a, p, .promise rnd vrnd vval⟩ rest
      (Synod.Packet.IsPromise b q r)
    rw [answers_append, answers, answers, hnet, Synod.flying_add, flying_of_harmless hsent,
      Nat.add_zero, hview]
    by_cases heq : a = b ∧ p = q ∧ rnd = r
    · obtain ⟨rfl, rfl, rfl⟩ := heq
      have hone : senders p k rnd [⟨a, p, k, rnd, (vrnd, vval)⟩] = [a] := by
        simp [senders, hpromises]
      rw [hone, Synod.flying_cons_of_pos (by simp), List.count_singleton_self]
      omega
    · have hnone : (senders q k r [⟨a, p, k, rnd, (vrnd, vval)⟩]).count b = 0 := by
        rw [senders, hpromises]
        split
        · rename_i hqr
          have hab : a ≠ b := fun hab => heq ⟨hab, hqr⟩
          simp [hab]
        · rfl
      rw [hnone, Nat.add_zero]
      exact Nat.add_le_add_right hle _
  · intro q r
    rw [hlists, hpromises]
    by_cases heq : p = q ∧ rnd = r
    · simp [heq]
    · simp [heq]

theorem prepareState_of_instance {p i : Fin n} {h' : SinglePaxosHandler (Fin n)}
    (hinstance : ∀ j, s'.instanceAt j k = if j = i then h' else s.instanceAt j k)
    (hstate : h'.proposerState.prepareState = (s.instanceAt i k).proposerState.prepareState)
    (rnd : ℕ) : (s'.instanceAt p k).proposerState.prepareState rnd =
      (s.instanceAt p k).proposerState.prepareState rnd := by
  rw [hinstance]
  split
  · rename_i hp
    rw [hp, hstate]
  · rfl

/-- A step that counts a promise at `i`. -/
theorem lists_of_counted {i : Fin n} {rnd : ℕ} {promises : List (ℕ × PaxosLogEntry)}
    {vote : ℕ × PaxosLogEntry}
    (hinstance : ∀ j, s'.instanceAt j k =
      if j = i then (s.instanceAt i k).withPromises rnd (promises ++ [vote])
      else s.instanceAt j k)
    (hstate : (s.instanceAt i k).proposerState.prepareState rnd = some promises)
    (p : Fin n) (r : ℕ) : ((s'.instanceAt p k).proposerState.prepareState r).getD [] =
      ((s.instanceAt p k).proposerState.prepareState r).getD [] ++
        if i = p ∧ rnd = r then [vote] else [] := by
  rw [hinstance]
  by_cases hp : i = p
  · subst p
    by_cases hr : rnd = r
    · subst r
      simp [withPromises, hstate]
    · simp [withPromises, hr, KeyMap.assign_of_ne _ _ (Ne.symm hr)]
  · simp [hp, Ne.symm hp]

theorem countedBy_of_counted {src dst : Fin n} {h : SinglePaxosHandler (Fin n)} {rnd vrnd : ℕ}
    {vval : PaxosLogEntry} {promises : List (ℕ × PaxosLogEntry)}
    (hstate : h.proposerState.prepareState rnd = some promises) :
    countedBy src dst k h (h.withPromises rnd (promises ++ [(vrnd, vval)]))
      (.promise rnd vrnd vval) = [⟨src, dst, k, rnd, (vrnd, vval)⟩] := by
  simp [countedBy, withPromises, hstate]

theorem IndexInv.propose (h : IndexInv k trace s) {self : Fin n} {draw : ℕ}
    {entry : PaxosLogEntry} (hcfg : Configured n k (s.instanceAt self k)) (hk : k < 2 ^ 32)
    (hmove : InstanceMove k s action shown s')
    (hinstance : ∀ i, s'.instanceAt i k =
      if i = self then ((s.instanceAt self k).propose draw entry).1 else s.instanceAt i k)
    (hnet : networkView k s'.network = networkView k s.network +
      networkView k (((s.instanceAt self k).propose draw entry).2.flatMap (outgoing self))) :
    IndexInv k trace s' := by
  rw [← List.append_nil trace]
  refine h.quiet hmove le_rfl hnet ?_ (by simp) ?_
  · simp only [SinglePaxosHandler.propose, List.flatMap_singleton, hcfg.configEndpoints]
    refine harmless_broadcast (hcfg.message_index hk _) rfl ?_
    intro dst
    simp only [Harmless, hinstance, if_true]
    exact known_of_propose _ draw entry
  · intro p rnd
    rw [hinstance]
    split
    · rename_i hp
      subst p
      simp only [SinglePaxosHandler.propose, KeyMap.insert_apply]
      split
      · rename_i hrnd
        subst rnd
        cases (s.instanceAt self k).proposerState.prepareState _ <;> rfl
      · rfl
    · rfl

theorem IndexInv.handle (h : IndexInv k trace s) (hcfg : ∀ i, Configured n k (s.instanceAt i k))
    (hk : k < 2 ^ 32) (hmove : InstanceMove k s action shown s') {src dst : Fin n}
    {content : PaxosMessage.Content} {body : Synod.Body PaxosLogEntry}
    {h' : SinglePaxosHandler (Fin n)} {effects : List (Effect (Fin n))}
    {rest : Multiset (Synod.Packet (Fin n) PaxosLogEntry)}
    (hbody : contentView content = some body)
    (hview : networkView k s.network = ⟨src, dst, body⟩ ::ₘ rest)
    (hhandled : (s.instanceAt dst k).Handled src content h' effects)
    (hinstance : ∀ i, s'.instanceAt i k = if i = dst then h' else s.instanceAt i k)
    (hnet : networkView k s'.network =
      rest + networkView k (effects.flatMap (outgoing dst))) :
    IndexInv k (trace ++ countedBy src dst k (s.instanceAt dst k) h' content) s' := by
  have hrest : rest ≤ networkView k s.network := by
    rw [hview]
    exact Multiset.le_cons_self _ _
  cases hhandled with
  | ignored content =>
      rw [countedBy_self]
      refine h.quiet hmove hrest hnet (by simp) (by simp) ?_
      intro p rnd
      rw [prepareState_of_instance hinstance rfl]
  | @promised rnd hlt =>
      cases hbody
      have hmessage := (hcfg dst).message_index hk (.promise rnd
        (s.instanceAt dst k).acceptorState.vrnd (s.instanceAt dst k).acceptorState.vval)
      rw [List.flatMap_singleton, networkView_send k dst src _ hmessage rfl] at hnet
      simp only [countedBy, List.append_nil]
      refine h.answer hmove hview hnet hlt (by simp [hinstance]) ?_
      intro p r
      rw [prepareState_of_instance hinstance rfl]
  | @counted rnd vrnd vval promises hstate hlt =>
      cases hbody
      rw [countedBy_of_counted hstate]
      exact h.count hmove hview hnet (by simp) (lists_of_counted hinstance hstate)
  | @«opened» rnd vrnd vval promises own hstate hfull hown =>
      cases hbody
      rw [countedBy_of_counted hstate]
      refine h.count hmove hview hnet ?_ (lists_of_counted hinstance hstate)
      rw [List.flatMap_singleton, (hcfg dst).configEndpoints]
      exact harmless_broadcast ((hcfg dst).message_index hk _) rfl fun _ => trivial
  | @accepted vrnd vval hle =>
      refine h.quiet hmove hrest hnet ?_ (by simp [countedBy]) ?_
      · rw [List.flatMap_singleton, (hcfg dst).configEndpoints]
        exact harmless_broadcast ((hcfg dst).message_index hk _) rfl fun _ => trivial
      · intro p rnd
        rw [prepareState_of_instance hinstance rfl]
  | heard hvotes hlt =>
      refine h.quiet hmove hrest hnet (by simp) (by simp [countedBy]) ?_
      intro p rnd
      rw [prepareState_of_instance hinstance rfl]
  | learned hvotes hfull =>
      refine h.quiet hmove hrest hnet (by simp [outgoing]) (by simp [countedBy]) ?_
      intro p rnd
      rw [prepareState_of_instance hinstance rfl]

theorem IndexInv.move (h : IndexInv k trace s) (hcfg : ∀ i, Configured n k (s.instanceAt i k))
    (hmove : InstanceMove k s action shown s') :
    IndexInv k (trace ++ counted s s' action) s' := by
  cases hmove with
  | frame hinstance hnet hevents =>
      have hle : networkView k s'.network ≤ networkView k s.network := by
        rcases hnet with heq | ⟨packet, heq⟩
        · exact heq.le
        · rw [heq]
          exact Multiset.le_cons_self _ _
      refine h.quiet (.frame (a := action) hinstance hnet hevents) hle
        (Multiset.add_zero _).symm (by simp) (counted_index_ne hinstance _) ?_
      intro p rnd
      rw [hinstance]
  | propose hk hinstance hnet =>
      simp only [counted, List.append_nil]
      exact h.propose (hcfg _) hk (.propose hk hinstance hnet) hinstance hnet
  | @handle position src dst message body rest h' effects s' hpacket hindex hbody hview hcall
      hinstance hnet =>
      rw [counted_of_deliver hpacket hindex hinstance]
      exact h.handle hcfg (hindex ▸ message.paxosIndex.toNat_lt)
        (.handle hpacket hindex hbody hview hcall hinstance hnet) hbody hview
        (handled_of_dispatch hcall) hinstance hnet

end

/-! ## Runs -/

/-- A run with its history is a run. -/
theorem exists_run_of_counting {trace : List (Counted n)} {s : State n}
    (h : (countingMachine n).system.Run trace s) :
    ∃ shown, (machine n).system.Run shown s := by
  induction h with
  | start hs =>
      cases hs
      exact ⟨[], .start rfl⟩
  | step _ hs ih =>
      obtain ⟨a, -, hnext⟩ := hs
      obtain ⟨shown, hrun⟩ := ih
      obtain ⟨⟨events, s'⟩, hmachine, hresult⟩ := Option.map_eq_some_iff.mp hnext
      cases hresult
      exact ⟨shown ++ events, hrun.step ⟨a, trivial, hmachine⟩⟩

theorem indexInv_of_run {trace : List (Counted n)} {s : State n}
    (h : (countingMachine n).system.Run trace s) (k : ℕ) : IndexInv k trace s := by
  refine h.invariant (I := IndexInv k) ?_ ?_
  · intro s hs
    cases hs
    refine ⟨?_, ?_, ?_, ?_, ?_⟩
    · intro p a rnd hmem
      cases Multiset.notMem_zero _ hmem
    · intro a p rnd vrnd vval hmem
      cases Multiset.notMem_zero _ hmem
    · intro a p rnd
      exact Nat.zero_le 1
    · intro a p rnd hpos
      exact absurd hpos (Nat.lt_irrefl 0)
    · intro p rnd
      rfl
  · intro trace s events s' hrun hinv hstep
    obtain ⟨a, -, hnext⟩ := hstep
    obtain ⟨shown, hmachine⟩ := exists_run_of_counting hrun
    have hcfg := configured_of_run hmachine
    obtain ⟨⟨_, s''⟩, hmove, hresult⟩ := Option.map_eq_some_iff.mp hnext
    cases hresult
    exact hinv.move (hcfg · k) (instanceMove_of_move hcfg (move_of_next hmove) k)

/-- With both entries there, no assertion of `promise` fails. -/
theorem promise_of_known {h : SinglePaxosHandler (Fin n)} {rnd : ℕ} (hknown : Known h rnd)
    (vrnd : ℕ) (vval : PaxosLogEntry) : ∃ result, h.promise rnd vrnd vval = .ok result := by
  obtain ⟨promises, hstate⟩ := Option.isSome_iff_exists.mp hknown.1
  obtain ⟨own, hown⟩ := Option.isSome_iff_exists.mp hknown.2
  simp only [SinglePaxosHandler.promise, hstate, hown]
  split
  · split
    · exact ⟨_, rfl⟩
    · exact ⟨_, rfl⟩
  · exact ⟨_, rfl⟩

/-- What is asked of the promises in a group. -/
structure PromisesSound (trace : List (Counted n)) (s : State n) : Prop where
  /-- When a `Promise` is handled, its number has an entry in both maps. -/
  known : ∀ src dst message rnd vrnd vval, ⟨src, dst, .paxosMessage message⟩ ∈ s.network →
    message.content = .promise rnd vrnd vval →
    let h := s.instanceAt dst message.paxosIndex.toNat
    (h.proposerState.prepareState rnd).isSome ∧ (h.proposerState.proposal rnd).isSome
  /-- The handler does not throw then. -/
  handled : ∀ src dst message rnd vrnd vval, ⟨src, dst, .paxosMessage message⟩ ∈ s.network →
    message.content = .promise rnd vrnd vval →
    ∃ result, (s.instanceAt dst message.paxosIndex.toNat).promise rnd vrnd vval = .ok result
  /-- The list of promises for a number has one element for each counted promise. -/
  recorded : ∀ p index rnd promises,
    (s.instanceAt p index).proposerState.prepareState rnd = some promises →
    promises = (promisesFor p index rnd trace).map Counted.vote
  /-- No acceptor is counted twice. -/
  distinct : ∀ p index rnd, (senders p index rnd trace).Nodup

theorem mem_networkView {s : State n} {src dst : Fin n} {message : PaxosMessage}
    {body : Synod.Body PaxosLogEntry} (hmem : ⟨src, dst, .paxosMessage message⟩ ∈ s.network)
    (hbody : contentView message.content = some body) :
    ⟨src, dst, body⟩ ∈ networkView message.paxosIndex.toNat s.network := by
  rw [networkView, Multiset.mem_coe, List.mem_filterMap]
  exact ⟨_, hmem, by simp [packetView, hbody]⟩

theorem promises_sound {trace : List (Counted n)} {s : State n}
    (h : (countingMachine n).system.Run trace s) : PromisesSound trace s := by
  have hknown : ∀ src dst message rnd vrnd vval,
      ⟨src, dst, .paxosMessage message⟩ ∈ s.network →
      message.content = .promise rnd vrnd vval →
      Known (s.instanceAt dst message.paxosIndex.toNat) rnd := by
    intro src dst message rnd vrnd vval hmem hcontent
    have hview := mem_networkView hmem (by rw [hcontent]; rfl)
    exact (indexInv_of_run h _).promised src dst rnd vrnd vval hview
  refine ⟨hknown, ?_, ?_, ?_⟩
  · intro src dst message rnd vrnd vval hmem hcontent
    exact promise_of_known (hknown src dst message rnd vrnd vval hmem hcontent) vrnd vval
  · intro p index rnd promises hstate
    have hrecorded := (indexInv_of_run h index).recorded p rnd
    rwa [hstate] at hrecorded
  · intro p index rnd
    rw [List.nodup_iff_count_le_one]
    intro a
    have honce := (indexInv_of_run h index).once a p rnd
    rw [answers] at honce
    omega

/-- Two nodes propose with one number, and one of them gets a majority. -/
theorem promises_sound_sample : ∃ (trace : List (Counted 3)) (s : State 3),
    PromisesSound trace s ∧ senders 0 0 1 trace = [1, 0] ∧ senders 1 0 1 trace = [2] := by
  obtain ⟨trace, s, hrun, hsample⟩ := (countingMachine 3).exists_run
    (p := fun r => senders 0 0 1 r.1 = [1, 0] ∧ senders 1 0 1 r.1 = [2])
    [.propose 0 1 .reconfigFinished, .propose 1 1 .reconfigFinished, .deliver 0, .deliver 0,
      .deliver 3, .deliver 4, .deliver 3, .deliver 3] (by decide +kernel)
  exact ⟨trace, s, promises_sound hrun, hsample⟩

end UniversalDB.Group
