import UniversalDB.Library.Synod.Protocol

/-! # Acceptors and packets -/

namespace Synod

variable {N V : Type*} [Fintype N] [DecidableEq N]

/-- What the past of a run says about the acceptors. A promise reports the last vote
below its number, and no acceptor promises a number twice. -/
structure AcceptorInv (trace : List (Event N V)) (s : State N V) : Prop where
  vrnd_le : ∀ a, (s.acceptor a).vrnd ≤ (s.acceptor a).rnd
  vote_mem : ∀ a, 0 < (s.acceptor a).vrnd →
    .accepted a (s.acceptor a).vrnd (s.acceptor a).vval ∈ trace
  accepted_le : ∀ a r v, .accepted a r v ∈ trace → r ≤ (s.acceptor a).vrnd
  promised_le : ∀ a p r k w, .promised a p r k w ∈ trace → r ≤ (s.acceptor a).rnd
  report_lt : ∀ a p r k w, .promised a p r k w ∈ trace → k < r
  report_mem : ∀ a p r k w, .promised a p r k w ∈ trace → 0 < k → .accepted a k w ∈ trace
  report_max : ∀ a p r k w l u, .promised a p r k w ∈ trace → .accepted a l u ∈ trace →
    l < r → l ≤ k
  promised_unique : ∀ a p r k w p' k' w', .promised a p r k w ∈ trace →
    .promised a p' r k' w' ∈ trace → p = p' ∧ k = k' ∧ w = w'

omit [Fintype N] [DecidableEq N] in
theorem acceptorInv_initial (blank : V) :
    AcceptorInv ([] : List (Event N V)) (State.initial blank) := by
  constructor <;> simp [State.initial]

omit [Fintype N] [DecidableEq N] in
/-- A step that neither promises nor accepts leaves everything about acceptors alone. -/
theorem AcceptorInv.frame {trace events : List (Event N V)} {s s' : State N V}
    (h : AcceptorInv trace s) (hacceptor : s'.acceptor = s.acceptor)
    (hpromised : ∀ a p r k w, .promised a p r k w ∉ events)
    (haccepted : ∀ a r v, .accepted a r v ∉ events) : AcceptorInv (trace ++ events) s' := by
  have hp : ∀ a p r k w, .promised a p r k w ∈ trace ++ events →
      .promised a p r k w ∈ trace := by
    intro a p r k w hmem
    exact (List.mem_append.mp hmem).resolve_right (hpromised a p r k w)
  have ha : ∀ a r v, .accepted a r v ∈ trace ++ events → .accepted a r v ∈ trace := by
    intro a r v hmem
    exact (List.mem_append.mp hmem).resolve_right (haccepted a r v)
  constructor
  · simpa only [hacceptor] using h.vrnd_le
  · intro a hpos
    rw [hacceptor] at hpos ⊢
    exact List.mem_append_left _ (h.vote_mem a hpos)
  · intro a r v hmem
    rw [hacceptor]
    exact h.accepted_le a r v (ha a r v hmem)
  · intro a p r k w hmem
    rw [hacceptor]
    exact h.promised_le a p r k w (hp a p r k w hmem)
  · intro a p r k w hmem
    exact h.report_lt a p r k w (hp a p r k w hmem)
  · intro a p r k w hmem hpos
    exact List.mem_append_left _ (h.report_mem a p r k w (hp a p r k w hmem) hpos)
  · intro a p r k w l u hmem hvote
    exact h.report_max a p r k w l u (hp a p r k w hmem) (ha a l u hvote)
  · intro a p r k w p' k' w' hmem hmem'
    exact h.promised_unique a p r k w p' k' w' (hp _ _ _ _ _ hmem) (hp _ _ _ _ _ hmem')

omit [Fintype N] in
theorem AcceptorInv.promise {trace : List (Event N V)} {s : State N V}
    (h : AcceptorInv trace s) (a p : N) (r : ℕ) (hr : (s.acceptor a).rnd < r)
    (network : Multiset (Packet N V)) :
    AcceptorInv
      (trace ++ [.promised a p r (s.acceptor a).vrnd (s.acceptor a).vval])
      { s with
        acceptor := Function.update s.acceptor a { s.acceptor a with rnd := r }
        network := network } := by
  have hvrnd : ∀ b, (Function.update s.acceptor a { s.acceptor a with rnd := r } b).vrnd =
      (s.acceptor b).vrnd := by
    intro b
    by_cases hb : b = a
    · subst b; simp
    · simp [hb]
  have hvval : ∀ b, (Function.update s.acceptor a { s.acceptor a with rnd := r } b).vval =
      (s.acceptor b).vval := by
    intro b
    by_cases hb : b = a
    · subst b; simp
    · simp [hb]
  have hrnd : ∀ b, (s.acceptor b).rnd ≤
      (Function.update s.acceptor a { s.acceptor a with rnd := r } b).rnd := by
    intro b
    by_cases hb : b = a
    · subst b; simpa using hr.le
    · simp [hb]
  have hnew : ∀ q k w, .promised a q r k w ∉ trace := by
    intro q k w hmem
    have hle := h.promised_le a q r k w hmem
    omega
  constructor
  · intro b
    dsimp only
    rw [hvrnd]
    exact (h.vrnd_le b).trans (hrnd b)
  · intro b hpos
    dsimp only at hpos ⊢
    rw [hvrnd] at hpos ⊢
    rw [hvval]
    exact List.mem_append_left _ (h.vote_mem b hpos)
  · intro b l v hmem
    dsimp only
    rw [hvrnd]
    exact h.accepted_le b l v (by simpa using hmem)
  · intro b q l k w hmem
    simp only [List.mem_append, List.mem_singleton, Event.promised.injEq] at hmem
    rcases hmem with hmem | ⟨rfl, rfl, rfl, rfl, rfl⟩
    · exact (h.promised_le b q l k w hmem).trans (hrnd b)
    · simp
  · intro b q l k w hmem
    simp only [List.mem_append, List.mem_singleton, Event.promised.injEq] at hmem
    rcases hmem with hmem | ⟨rfl, rfl, rfl, rfl, rfl⟩
    · exact h.report_lt b q l k w hmem
    · exact (h.vrnd_le b).trans_lt hr
  · intro b q l k w hmem hpos
    simp only [List.mem_append, List.mem_singleton, Event.promised.injEq] at hmem
    apply List.mem_append_left
    rcases hmem with hmem | ⟨rfl, rfl, rfl, rfl, rfl⟩
    · exact h.report_mem b q l k w hmem hpos
    · exact h.vote_mem b hpos
  · intro b q l k w m u hmem hvote hlt
    have hvote' : .accepted b m u ∈ trace := by simpa using hvote
    simp only [List.mem_append, List.mem_singleton, Event.promised.injEq] at hmem
    rcases hmem with hmem | ⟨rfl, rfl, rfl, rfl, rfl⟩
    · exact h.report_max b q l k w m u hmem hvote' hlt
    · exact h.accepted_le b m u hvote'
  · intro b q l k w q' k' w' hmem hmem'
    simp only [List.mem_append, List.mem_singleton, Event.promised.injEq] at hmem hmem'
    rcases hmem with hmem | ⟨rfl, rfl, rfl, rfl, rfl⟩
    · rcases hmem' with hmem' | ⟨rfl, rfl, rfl, rfl, rfl⟩
      · exact h.promised_unique b q l k w q' k' w' hmem hmem'
      · exact absurd hmem (hnew q k w)
    · rcases hmem' with hmem' | ⟨-, rfl, -, rfl, rfl⟩
      · exact absurd hmem' (hnew q' k' w')
      · exact ⟨rfl, rfl, rfl⟩

omit [Fintype N] in
theorem AcceptorInv.accept {trace : List (Event N V)} {s : State N V}
    (h : AcceptorInv trace s) (a : N) (r : ℕ) (v : V) (hr : (s.acceptor a).rnd ≤ r)
    (network : Multiset (Packet N V)) :
    AcceptorInv (trace ++ [.accepted a r v])
      { s with
        acceptor := Function.update s.acceptor a ⟨r, r, v⟩
        network := network } := by
  have hpromised : ∀ b q l k w, .promised b q l k w ∈ trace ++ [.accepted a r v] →
      .promised b q l k w ∈ trace := by
    intro b q l k w hmem
    simpa using hmem
  constructor
  · intro b
    by_cases hb : b = a
    · subst b; simp
    · simpa [hb] using h.vrnd_le b
  · intro b hpos
    by_cases hb : b = a
    · subst b; simp
    · simp only [Function.update_of_ne hb] at hpos ⊢
      exact List.mem_append_left _ (h.vote_mem b hpos)
  · intro b l u hmem
    simp only [List.mem_append, List.mem_singleton, Event.accepted.injEq] at hmem
    by_cases hb : b = a
    · subst b
      simp only [Function.update_self]
      rcases hmem with hmem | ⟨-, rfl, -⟩
      · exact ((h.accepted_le a l u hmem).trans (h.vrnd_le a)).trans hr
      · exact le_rfl
    · simp only [Function.update_of_ne hb]
      rcases hmem with hmem | ⟨rfl, -, -⟩
      · exact h.accepted_le b l u hmem
      · exact absurd rfl hb
  · intro b q l k w hmem
    have hle := h.promised_le b q l k w (hpromised b q l k w hmem)
    by_cases hb : b = a
    · subst b
      simpa using hle.trans hr
    · simpa [hb] using hle
  · intro b q l k w hmem
    exact h.report_lt b q l k w (hpromised b q l k w hmem)
  · intro b q l k w hmem hpos
    exact List.mem_append_left _ (h.report_mem b q l k w (hpromised b q l k w hmem) hpos)
  · intro b q l k w m u hmem hvote hlt
    have hold := hpromised b q l k w hmem
    simp only [List.mem_append, List.mem_singleton, Event.accepted.injEq] at hvote
    rcases hvote with hvote | ⟨rfl, rfl, rfl⟩
    · exact h.report_max b q l k w m u hold hvote hlt
    · -- the number was promised before, so it is not above the vote just cast
      have hle := h.promised_le b q l k w hold
      omega
  · intro b q l k w q' k' w' hmem hmem'
    exact h.promised_unique b q l k w q' k' w' (hpromised _ _ _ _ _ hmem)
      (hpromised _ _ _ _ _ hmem')

theorem acceptorInv_of_run {P : Protocol V} {trace : List (Event N V)} {s : State N V}
    (h : P.system.Run trace s) : AcceptorInv trace s := by
  apply h.invariant
  · rintro s rfl
    exact acceptorInv_initial P.blank
  · intro trace s events s' _ ih hstep
    cases hstep with
    | promise hnet hr => exact ih.promise _ _ _ hr _
    | accept hnet hr => exact ih.accept _ _ _ hr _
    | lose => exact ih.frame rfl (by simp) (by simp)
    | propose => exact ih.frame rfl (by simp) (by simp)
    | count => exact ih.frame rfl (by simp) (by simp)
    | «open» => exact ih.frame rfl (by simp) (by simp)
    | hear => exact ih.frame rfl (by simp) (by simp)
    | learn => exact ih.frame rfl (by simp) (by simp)

/-- Every packet in flight was sent, and only opened rounds are voted in. -/
structure SentInv (trace : List (Event N V)) (s : State N V) : Prop where
  promise : ∀ a p r k w, ⟨a, p, .promise r k w⟩ ∈ s.network → .promised a p r k w ∈ trace
  accept : ∀ p a r v, ⟨p, a, .accept r v⟩ ∈ s.network → .opened p r v ∈ trace
  learn : ∀ a d r v, ⟨a, d, .learn r v⟩ ∈ s.network → .accepted a r v ∈ trace
  accepted_opened : ∀ a r v, .accepted a r v ∈ trace → ∃ p, .opened p r v ∈ trace

omit [Fintype N] [DecidableEq N] in
/-- A step keeps `SentInv` when every packet it adds shows in its events, and every vote
in its events answers a packet. -/
theorem SentInv.extend {trace events : List (Event N V)} {s s' : State N V}
    {rest sent : Multiset (Packet N V)} (h : SentInv trace s)
    (hnet : s'.network = rest + sent) (hrest : rest ≤ s.network)
    (hpromise : ∀ a p r k w, ⟨a, p, .promise r k w⟩ ∈ sent → .promised a p r k w ∈ events)
    (haccept : ∀ p a r v, ⟨p, a, .accept r v⟩ ∈ sent → .opened p r v ∈ events)
    (hlearn : ∀ a d r v, ⟨a, d, .learn r v⟩ ∈ sent → .accepted a r v ∈ events)
    (hvote : ∀ a r v, .accepted a r v ∈ events → ∃ p, ⟨p, a, .accept r v⟩ ∈ s.network) :
    SentInv (trace ++ events) s' := by
  have hmem : ∀ packet, packet ∈ s'.network → packet ∈ s.network ∨ packet ∈ sent := by
    intro packet hp
    rw [hnet, Multiset.mem_add] at hp
    exact hp.imp_left (Multiset.mem_of_le hrest)
  constructor
  · intro a p r k w hp
    exact List.mem_append.mpr ((hmem _ hp).imp (h.promise a p r k w) (hpromise a p r k w))
  · intro p a r v hp
    exact List.mem_append.mpr ((hmem _ hp).imp (h.accept p a r v) (haccept p a r v))
  · intro a d r v hp
    exact List.mem_append.mpr ((hmem _ hp).imp (h.learn a d r v) (hlearn a d r v))
  · intro a r v hp
    rcases List.mem_append.mp hp with hp | hp
    · obtain ⟨p, hopen⟩ := h.accepted_opened a r v hp
      exact ⟨p, List.mem_append_left _ hopen⟩
    · obtain ⟨p, hpacket⟩ := hvote a r v hp
      exact ⟨p, List.mem_append_left _ (h.accept p a r v hpacket)⟩

theorem sentInv_of_run {P : Protocol V} {trace : List (Event N V)} {s : State N V}
    (h : P.system.Run trace s) : SentInv trace s := by
  apply h.invariant
  · rintro s rfl
    constructor <;> simp [State.initial]
  · intro trace s events s' _ ih hstep
    cases hstep with
    | lose hnet =>
        exact ih.extend (Multiset.add_zero _).symm (hnet ▸ Multiset.le_cons_self _ _)
          (by simp) (by simp) (by simp) (by simp)
    | propose =>
        exact ih.extend rfl le_rfl (by simp) (by simp) (by simp) (by simp)
    | promise hnet =>
        exact ih.extend rfl (hnet ▸ Multiset.le_cons_self _ _)
          (by simp) (by simp) (by simp) (by simp)
    | count hnet =>
        exact ih.extend (Multiset.add_zero _).symm (hnet ▸ Multiset.le_cons_self _ _)
          (by simp) (by simp) (by simp) (by simp)
    | «open» hnet =>
        exact ih.extend rfl (hnet ▸ Multiset.le_cons_self _ _)
          (by simp) (by simp) (by simp) (by simp)
    | @accept p a r v rest hnet =>
        refine ih.extend rfl (hnet ▸ Multiset.le_cons_self _ _)
          (by simp) (by simp) (by simp) ?_
        simp only [List.mem_singleton, Event.accepted.injEq]
        rintro b l u ⟨rfl, rfl, rfl⟩
        exact ⟨p, by simp [hnet]⟩
    | hear hnet =>
        exact ih.extend (Multiset.add_zero _).symm (hnet ▸ Multiset.le_cons_self _ _)
          (by simp) (by simp) (by simp) (by simp)
    | learn hnet =>
        exact ih.extend (Multiset.add_zero _).symm (hnet ▸ Multiset.le_cons_self _ _)
          (by simp) (by simp) (by simp) (by simp)

end Synod
