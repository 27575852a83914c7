import UniversalDB.Library.Synod.Rounds

/-! # Votes are cast and counted at most once -/

namespace Synod

variable {N V : Type*}

def Packet.IsAccept (a : N) (r : ℕ) (packet : Packet N V) : Prop :=
  packet.dst = a ∧ ∃ v, packet.body = .accept r v

def Packet.IsLearn (a d : N) (r : ℕ) (packet : Packet N V) : Prop :=
  packet.src = a ∧ packet.dst = d ∧ ∃ v, packet.body = .learn r v

@[simp] theorem isAccept_mk (a src dst : N) (r : ℕ) (body : Body V) :
    Packet.IsAccept a r ⟨src, dst, body⟩ ↔ dst = a ∧ ∃ v, body = .accept r v := Iff.rfl

@[simp] theorem isLearn_mk (a d src dst : N) (r : ℕ) (body : Body V) :
    Packet.IsLearn a d r ⟨src, dst, body⟩ ↔ src = a ∧ dst = d ∧ ∃ v, body = .learn r v :=
  Iff.rfl

/-! ## Casting votes -/

/-- Each acceptor is asked for its vote in a round at most once, and not again after it
voted. -/
structure AcceptInv (trace : List (Event N V)) (s : State N V) : Prop where
  accept_once : ∀ a r, flying s.network (Packet.IsAccept a r) ≤ 1
  accepted_gone : ∀ a r v, .accepted a r v ∈ trace →
    flying s.network (Packet.IsAccept a r) = 0

theorem AcceptInv.frame {trace events : List (Event N V)} {s s' : State N V}
    (h : AcceptInv trace s)
    (hnet : ∀ a r, flying s'.network (Packet.IsAccept a r) ≤
      flying s.network (Packet.IsAccept a r))
    (hevents : ∀ a r v, .accepted a r v ∈ events →
      flying s'.network (Packet.IsAccept a r) = 0) : AcceptInv (trace ++ events) s' := by
  constructor
  · intro a r
    exact (hnet a r).trans (h.accept_once a r)
  · intro a r v hmem
    rcases List.mem_append.mp hmem with hmem | hmem
    · exact Nat.le_zero.mp ((hnet a r).trans (h.accepted_gone a r v hmem).le)
    · exact hevents a r v hmem

variable [Fintype N] [DecidableEq N]

/-- Opening a fresh round asks every acceptor once. -/
theorem AcceptInv.open {trace : List (Event N V)} {s s' : State N V}
    (h : AcceptInv trace s) (hsent : SentInv trace s) {p : N} {r : ℕ} {v : V}
    {rest : Multiset (Packet N V)} (hrest : rest ≤ s.network)
    (hnet : s'.network = rest + broadcast p (.accept r v))
    (hfresh : ∀ q u, .opened q r u ∉ trace) :
    AcceptInv (trace ++ [.opened p r v]) s' := by
  have hle : ∀ a l, flying rest (Packet.IsAccept a l) ≤
      flying s.network (Packet.IsAccept a l) :=
    fun a l => flying_le_of_le hrest _
  have hzero : ∀ a, flying s.network (Packet.IsAccept a r) = 0 := by
    intro a
    apply flying_eq_zero.mpr
    rintro ⟨src, dst, body⟩ hmem ⟨rfl, u, rfl⟩
    exact hfresh src u (hsent.accept _ _ _ _ hmem)
  have hother : ∀ a l, l ≠ r → flying s'.network (Packet.IsAccept a l) ≤
      flying s.network (Packet.IsAccept a l) := by
    intro a l hl
    rw [hnet, flying_add, flying_broadcast_of_neg, Nat.add_zero]
    · exact hle a l
    · simp [hl.symm]
  constructor
  · intro a l
    by_cases hl : l = r
    · subst l
      have h₁ := hle a r
      have h₂ : flying (broadcast p (.accept r v)) (Packet.IsAccept a r) ≤ 1 :=
        flying_broadcast_le fun d hd => hd.1
      have h₃ := hzero a
      rw [hnet, flying_add]
      omega
    · exact (hother a l hl).trans (h.accept_once a l)
  · intro a l u hmem
    have hmem' : .accepted a l u ∈ trace := by simpa using hmem
    have hl : l ≠ r := by
      rintro rfl
      obtain ⟨q, hq⟩ := hsent.accepted_opened a l u hmem'
      exact hfresh q u hq
    exact Nat.le_zero.mp ((hother a l hl).trans (h.accepted_gone a l u hmem').le)

theorem acceptInv_of_run {P : Protocol V} (hq : Fintype.card N < 2 * P.quorum)
    {trace : List (Event N V)} {s : State N V} (h : P.system.Run trace s) :
    AcceptInv trace s := by
  apply h.invariant
  · rintro s rfl
    constructor <;> simp [State.initial, flying]
  · intro trace s events s' hrun ih hstep
    have hsent := sentInv_of_run hrun
    cases hstep with
    | lose hnet => exact ih.frame (fun a r => hnet ▸ flying_le_cons _ _ _) (by simp)
    | propose =>
        refine ih.frame (fun a r => ?_) (by simp)
        rw [flying_add, flying_broadcast_of_neg (by simp), Nat.add_zero]
    | promise hnet =>
        refine ih.frame (fun a r => ?_) (by simp)
        rw [flying_add, flying_singleton_of_neg (by simp), Nat.add_zero, hnet]
        exact flying_le_cons _ _ _
    | count hnet => exact ih.frame (fun a r => hnet ▸ flying_le_cons _ _ _) (by simp)
    | «open» hnet hps hfull =>
        refine ih.open hsent (hnet ▸ Multiset.le_cons_self _ _) rfl fun q u hmem => ?_
        exact not_openedBy hq (promiseInv_of_run hrun) (acceptorInv_of_run hrun) hsent hnet hps
          hfull q u ((openedInv_of_run hq hrun).opened_by q _ u hmem)
    | @accept p a r v rest hnet =>
        have hrest : ∀ b l, flying (rest + broadcast a (.learn r v)) (Packet.IsAccept b l) =
            flying rest (Packet.IsAccept b l) := by
          intro b l
          rw [flying_add, flying_broadcast_of_neg (by simp), Nat.add_zero]
        refine ih.frame (fun b l => ?_) ?_
        · rw [hrest, hnet]
          exact flying_le_cons _ _ _
        · simp only [List.mem_singleton, Event.accepted.injEq]
          rintro b l u ⟨rfl, rfl, rfl⟩
          have honce := ih.accept_once b l
          rw [hnet, flying_cons_of_pos (by simp)] at honce
          rw [hrest]
          omega
    | hear hnet => exact ih.frame (fun a r => hnet ▸ flying_le_cons _ _ _) (by simp)
    | learn hnet => exact ih.frame (fun a r => hnet ▸ flying_le_cons _ _ _) (by simp)

/-! ## Counting votes -/

/-- Each vote reaches the count of a learner at most once, and a count never mixes two
values. -/
structure LearnInv (P : Protocol V) (trace : List (Event N V)) (s : State N V) : Prop where
  learn_once : ∀ a d r, flying s.network (Packet.IsLearn a d r) ≤ 1
  nonempty : ∀ d r v as, s.tally d r = some (v, as) → as ≠ []
  nodup : ∀ d r v as, s.tally d r = some (v, as) → as.Nodup
  mem : ∀ d r v as, s.tally d r = some (v, as) → ∀ a ∈ as, .accepted a r v ∈ trace
  gone : ∀ d r v as, s.tally d r = some (v, as) → ∀ a ∈ as,
    flying s.network (Packet.IsLearn a d r) = 0
  learned : ∀ d r v, .learned d r v ∈ trace →
    Voting.Quorum P.quorum fun a => .accepted a r v ∈ trace

omit [Fintype N] [DecidableEq N] in
theorem LearnInv.frame {P : Protocol V} {trace events : List (Event N V)} {s s' : State N V}
    (h : LearnInv P trace s) (htally : s'.tally = s.tally)
    (hnet : ∀ a d r, flying s'.network (Packet.IsLearn a d r) ≤
      flying s.network (Packet.IsLearn a d r))
    (hevents : ∀ d r v, .learned d r v ∉ events) : LearnInv P (trace ++ events) s' := by
  constructor
  · intro a d r
    exact (hnet a d r).trans (h.learn_once a d r)
  · rw [htally]
    exact h.nonempty
  · rw [htally]
    exact h.nodup
  · rw [htally]
    intro d r v as has a ha
    exact List.mem_append_left _ (h.mem d r v as has a ha)
  · rw [htally]
    intro d r v as has a ha
    exact Nat.le_zero.mp ((hnet a d r).trans (h.gone d r v as has a ha).le)
  · intro d r v hmem
    have hold := (List.mem_append.mp hmem).resolve_right (hevents d r v)
    exact (h.learned d r v hold).mono fun a ha => List.mem_append_left _ ha

/-- A fresh vote is announced once to every learner. -/
theorem LearnInv.accept {P : Protocol V} {trace : List (Event N V)} {s s' : State N V}
    (h : LearnInv P trace s) (hsent : SentInv trace s) {a : N} {r : ℕ} {v : V}
    {rest : Multiset (Packet N V)} (hrest : rest ≤ s.network) (htally : s'.tally = s.tally)
    (hnet : s'.network = rest + broadcast a (.learn r v))
    (hfresh : ∀ u, .accepted a r u ∉ trace) :
    LearnInv P (trace ++ [.accepted a r v]) s' := by
  have hle : ∀ b d l, flying rest (Packet.IsLearn b d l) ≤
      flying s.network (Packet.IsLearn b d l) :=
    fun b d l => flying_le_of_le hrest _
  have hzero : ∀ d, flying s.network (Packet.IsLearn a d r) = 0 := by
    intro d
    apply flying_eq_zero.mpr
    rintro ⟨src, dst, body⟩ hmem ⟨rfl, rfl, u, rfl⟩
    exact hfresh u (hsent.learn _ _ _ _ hmem)
  have hother : ∀ b d l, ¬ (a = b ∧ r = l) → flying s'.network (Packet.IsLearn b d l) ≤
      flying s.network (Packet.IsLearn b d l) := by
    intro b d l hne
    rw [hnet, flying_add, flying_broadcast_of_neg, Nat.add_zero]
    · exact hle b d l
    · simp only [isLearn_mk, Body.learn.injEq]
      rintro dst ⟨rfl, -, -, rfl, -⟩
      exact hne ⟨rfl, rfl⟩
  constructor
  · intro b d l
    by_cases heq : a = b ∧ r = l
    · obtain ⟨rfl, rfl⟩ := heq
      have h₁ := hle a d r
      have h₂ : flying (broadcast a (.learn r v)) (Packet.IsLearn a d r) ≤ 1 :=
        flying_broadcast_le fun e he => he.2.1
      have h₃ := hzero d
      rw [hnet, flying_add]
      omega
    · exact (hother b d l heq).trans (h.learn_once b d l)
  · rw [htally]
    exact h.nonempty
  · rw [htally]
    exact h.nodup
  · rw [htally]
    intro d l u as has b hb
    exact List.mem_append_left _ (h.mem d l u as has b hb)
  · rw [htally]
    intro d l u as has b hb
    have hne : ¬ (a = b ∧ r = l) := by
      rintro ⟨rfl, rfl⟩
      exact hfresh u (h.mem d r u as has a hb)
    exact Nat.le_zero.mp ((hother b d l hne).trans (h.gone d l u as has b hb).le)
  · intro d l u hmem
    have hold : .learned d l u ∈ trace := by simpa using hmem
    exact (h.learned d l u hold).mono fun b hb => List.mem_append_left _ hb

omit [Fintype N] [DecidableEq N] in
/-- The votes counted so far are for the value of a vote that is on its way: the round was
opened with one value. -/
theorem LearnInv.counted {P : Protocol V} {trace : List (Event N V)} {s : State N V}
    (h : LearnInv P trace s) (hsent : SentInv trace s) (hopen : OpenedInv P trace s)
    {a d : N} {r : ℕ} {v w : V} {as : List N} (hvote : .accepted a r v ∈ trace)
    (has : (s.tally d r).getD (v, []) = (w, as)) :
    w = v ∧ as.Nodup ∧ ∀ b ∈ as, .accepted b r v ∈ trace ∧
      flying s.network (Packet.IsLearn b d r) = 0 := by
  cases htally : s.tally d r with
  | none =>
      rw [htally] at has
      obtain ⟨rfl, rfl⟩ := Prod.mk.inj has
      simp
  | some entry =>
      obtain rfl : entry = (w, as) := by simpa [htally] using has
      obtain ⟨b, hb⟩ := List.exists_mem_of_ne_nil as (h.nonempty d r w as htally)
      obtain ⟨p, hp⟩ := hsent.accepted_opened b r w (h.mem d r w as htally b hb)
      obtain ⟨p', hp'⟩ := hsent.accepted_opened a r v hvote
      obtain ⟨-, rfl⟩ := hopen.opened_unique hp hp'
      exact ⟨rfl, h.nodup d r w as htally, fun c hc =>
        ⟨h.mem d r w as htally c hc, h.gone d r w as htally c hc⟩⟩

omit [Fintype N] in
/-- Counting a delivered vote. The first vote of a round fixes the value of the count. -/
theorem LearnInv.count {P : Protocol V} {trace : List (Event N V)} {s : State N V}
    (h : LearnInv P trace s) (hsent : SentInv trace s) (hopen : OpenedInv P trace s)
    {a d : N} {r : ℕ} {v w : V} {as : List N} {rest : Multiset (Packet N V)}
    (hnet : s.network = ⟨a, d, .learn r v⟩ ::ₘ rest)
    (has : (s.tally d r).getD (v, []) = (w, as)) :
    LearnInv P (trace ++ [])
        { s with
          tally := Function.update s.tally d ((s.tally d).assign r (w, as ++ [a]))
          network := rest } ∧
      (as ++ [a]).Nodup ∧ ∀ b ∈ as ++ [a], .accepted b r w ∈ trace := by
  have hvote : .accepted a r v ∈ trace := hsent.learn a d r v (by simp [hnet])
  have hflying : flying s.network (Packet.IsLearn a d r) =
      flying rest (Packet.IsLearn a d r) + 1 := by
    rw [hnet]
    exact flying_cons_of_pos (by simp)
  have hle : ∀ b e l, flying rest (Packet.IsLearn b e l) ≤
      flying s.network (Packet.IsLearn b e l) := by
    intro b e l
    rw [hnet]
    exact flying_le_cons _ _ _
  obtain ⟨rfl, hnodup, hmem⟩ := h.counted hsent hopen hvote has
  have hfresh : a ∉ as := by
    intro ha
    have := (hmem a ha).2
    omega
  have hnodup' : (as ++ [a]).Nodup := by
    refine List.nodup_append.mpr ⟨hnodup, by simp, ?_⟩
    rintro b hb c hc rfl
    exact hfresh (List.mem_singleton.mp hc ▸ hb)
  have hmem' : ∀ b ∈ as ++ [a], .accepted b r w ∈ trace := by
    intro b hb
    rcases List.mem_append.mp hb with hb | hb
    · exact (hmem b hb).1
    · rw [List.mem_singleton.mp hb]
      exact hvote
  refine ⟨?_, hnodup', hmem'⟩
  rw [List.append_nil]
  constructor
  · intro b e l
    exact (hle b e l).trans (h.learn_once b e l)
  · intro e l u bs hbs
    rcases KeyMap.update_assign_cases hbs with ⟨-, -, heq⟩ | hbs
    · cases heq
      simp
    · exact h.nonempty e l u bs hbs
  · intro e l u bs hbs
    rcases KeyMap.update_assign_cases hbs with ⟨-, -, heq⟩ | hbs
    · cases heq
      exact hnodup'
    · exact h.nodup e l u bs hbs
  · intro e l u bs hbs b hb
    rcases KeyMap.update_assign_cases hbs with ⟨rfl, rfl, heq⟩ | hbs
    · cases heq
      exact hmem' b hb
    · exact h.mem e l u bs hbs b hb
  · intro e l u bs hbs b hb
    rcases KeyMap.update_assign_cases hbs with ⟨rfl, rfl, heq⟩ | hbs
    · cases heq
      rcases List.mem_append.mp hb with hb | hb
      · exact Nat.le_zero.mp ((hle b e l).trans (hmem b hb).2.le)
      · rw [List.mem_singleton.mp hb]
        have := h.learn_once a e l
        dsimp only
        omega
    · exact Nat.le_zero.mp ((hle b e l).trans (h.gone e l u bs hbs b hb).le)
  · exact h.learned

theorem learnInv_of_run {P : Protocol V} (hq : Fintype.card N < 2 * P.quorum)
    {trace : List (Event N V)} {s : State N V} (h : P.system.Run trace s) :
    LearnInv P trace s := by
  apply h.invariant
  · rintro s rfl
    constructor <;> simp [State.initial, flying]
  · intro trace s events s' hrun ih hstep
    have hsent := sentInv_of_run hrun
    cases hstep with
    | lose hnet => exact ih.frame rfl (fun a d r => hnet ▸ flying_le_cons _ _ _) (by simp)
    | propose =>
        refine ih.frame rfl (fun a d r => ?_) (by simp)
        rw [flying_add, flying_broadcast_of_neg (by simp), Nat.add_zero]
    | promise hnet =>
        refine ih.frame rfl (fun a d r => ?_) (by simp)
        rw [flying_add, flying_singleton_of_neg (by simp), Nat.add_zero, hnet]
        exact flying_le_cons _ _ _
    | count hnet => exact ih.frame rfl (fun a d r => hnet ▸ flying_le_cons _ _ _) (by simp)
    | «open» hnet =>
        refine ih.frame rfl (fun a d r => ?_) (by simp)
        rw [flying_add, flying_broadcast_of_neg (by simp), Nat.add_zero, hnet]
        exact flying_le_cons _ _ _
    | accept hnet =>
        refine ih.accept hsent (hnet ▸ Multiset.le_cons_self _ _) rfl rfl fun u hmem => ?_
        have hgone := (acceptInv_of_run hq hrun).accepted_gone _ _ _ hmem
        rw [hnet, flying_cons_of_pos (by simp)] at hgone
        omega
    | hear hnet has => exact (ih.count hsent (openedInv_of_run hq hrun) hnet has).1
    | learn hnet has hfull =>
        obtain ⟨hinv, hnodup, hmem⟩ := ih.count hsent (openedInv_of_run hq hrun) hnet has
        rw [List.append_nil] at hinv
        constructor
        · exact hinv.learn_once
        · exact hinv.nonempty
        · exact hinv.nodup
        · intro d r v as has a ha
          exact List.mem_append_left _ (hinv.mem d r v as has a ha)
        · exact hinv.gone
        · intro d r v hlearned
          simp only [List.mem_append, List.mem_singleton, Event.learned.injEq] at hlearned
          rcases hlearned with hlearned | ⟨-, rfl, rfl⟩
          · exact (hinv.learned d r v hlearned).mono fun a ha => List.mem_append_left _ ha
          · refine Voting.Quorum.of_list hnodup (by simp [hfull]) fun a ha => ?_
            exact List.mem_append_left _ (hmem a ha)

end Synod
