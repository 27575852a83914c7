import Mathlib.Data.List.Pairwise
import UniversalDB.Library.Synod.Acceptors
import UniversalDB.Library.Voting

/-! # Every round is opened at most once -/

namespace Synod

variable {N V : Type*}

/-! ## Counting the packets in flight -/

open Classical in
/-- The number of packets in flight that satisfy `P`. -/
noncomputable def flying (network : Multiset (Packet N V)) (P : Packet N V → Prop) : ℕ :=
  network.countP P

theorem flying_eq_zero {network : Multiset (Packet N V)} {P : Packet N V → Prop} :
    flying network P = 0 ↔ ∀ packet ∈ network, ¬ P packet := by
  simp [flying, Multiset.countP_eq_zero]

theorem flying_add (network network' : Multiset (Packet N V)) (P : Packet N V → Prop) :
    flying (network + network') P = flying network P + flying network' P := by
  simp [flying]

theorem flying_cons_of_pos {packet : Packet N V} {network : Multiset (Packet N V)}
    {P : Packet N V → Prop} (h : P packet) :
    flying (packet ::ₘ network) P = flying network P + 1 := by
  simp [flying, h]

theorem flying_le_of_le {network network' : Multiset (Packet N V)} (h : network ≤ network')
    (P : Packet N V → Prop) : flying network P ≤ flying network' P := by
  classical
  simp only [flying]
  convert Multiset.countP_le_of_le P h

theorem flying_le_cons (packet : Packet N V) (network : Multiset (Packet N V))
    (P : Packet N V → Prop) : flying network P ≤ flying (packet ::ₘ network) P :=
  flying_le_of_le (Multiset.le_cons_self _ _) P

theorem flying_singleton_of_neg {packet : Packet N V} {P : Packet N V → Prop}
    (h : ¬ P packet) : flying {packet} P = 0 :=
  flying_eq_zero.mpr (by simpa using h)

theorem flying_singleton_le (packet : Packet N V) (P : Packet N V → Prop) :
    flying {packet} P ≤ 1 := by
  classical
  simp only [flying]
  convert Multiset.countP_le_card P {packet}
  exact (Multiset.card_singleton packet).symm

theorem flying_broadcast_of_neg [Fintype N] {src : N} {body : Body V}
    {P : Packet N V → Prop} (h : ∀ dst, ¬ P ⟨src, dst, body⟩) :
    flying (broadcast src body) P = 0 := by
  apply flying_eq_zero.mpr
  rintro ⟨s, d, b⟩ hmem
  obtain ⟨rfl, rfl⟩ := mem_broadcast.mp hmem
  exact h d

/-- A broadcast puts one packet on its way to each node. -/
theorem flying_broadcast_le [Fintype N] [DecidableEq N] {src dst : N} {body : Body V}
    {P : Packet N V → Prop} (h : ∀ d, P ⟨src, d, body⟩ → d = dst) :
    flying (broadcast src body) P ≤ 1 := by
  classical
  rw [flying, broadcast, Multiset.countP_map]
  calc
    _ ≤ (Finset.univ.filter (· = dst) : Finset N).val.card := by
        apply Multiset.card_le_card
        rw [Finset.filter_val]
        exact Multiset.monotone_filter_right _ h
    _ = 1 := by rw [Finset.card_val, Finset.filter_eq', if_pos (Finset.mem_univ dst)]; rfl

/-! ## Recorded promises -/

def Packet.IsPromise (a p : N) (r : ℕ) (packet : Packet N V) : Prop :=
  packet.src = a ∧ packet.dst = p ∧ ∃ k w, packet.body = .promise r k w

@[simp] theorem isPromise_mk (a p src dst : N) (r : ℕ) (body : Body V) :
    Packet.IsPromise a p r ⟨src, dst, body⟩ ↔
      src = a ∧ dst = p ∧ ∃ k w, body = .promise r k w := Iff.rfl

/-- A promise is in flight or recorded, and at most once altogether. -/
structure PromiseInv (trace : List (Event N V)) (s : State N V) : Prop where
  promise_once : ∀ a p r, flying s.network (Packet.IsPromise a p r) ≤ 1
  nodup : ∀ p r ps, s.promises p r = some ps → (ps.map Prod.fst).Nodup
  mem : ∀ p r ps, s.promises p r = some ps → ∀ x ∈ ps,
    .promised x.1 p r x.2.1 x.2.2 ∈ trace
  gone : ∀ p r ps, s.promises p r = some ps → ∀ x ∈ ps,
    flying s.network (Packet.IsPromise x.1 p r) = 0

/-- Steps that add no promise keep `PromiseInv`. -/
theorem PromiseInv.frame {trace events : List (Event N V)} {s s' : State N V}
    (h : PromiseInv trace s) (hpromises : s'.promises = s.promises)
    (hnet : ∀ a p r, flying s'.network (Packet.IsPromise a p r) ≤
      flying s.network (Packet.IsPromise a p r)) : PromiseInv (trace ++ events) s' := by
  constructor
  · intro a p r
    exact (hnet a p r).trans (h.promise_once a p r)
  · rw [hpromises]
    exact h.nodup
  · rw [hpromises]
    intro p r ps hps x hx
    exact List.mem_append_left _ (h.mem p r ps hps x hx)
  · rw [hpromises]
    intro p r ps hps x hx
    exact Nat.le_zero.mp ((hnet x.1 p r).trans (h.gone p r ps hps x hx).le)

theorem insert_nil_eq_some {α : Type*} {m : KeyMap ℕ (List α)} {r l : ℕ} {ps : List α}
    (h : m.insert r [] l = some ps) : m l = some ps ∨ ps = [] := by
  rw [KeyMap.insert_apply] at h
  split at h
  · rename_i hl
    subst l
    cases hm : m r with
    | none =>
        right
        simpa [hm, eq_comm] using h
    | some qs =>
        left
        simpa [hm] using h
  · exact .inl h

variable [DecidableEq N]

theorem PromiseInv.propose {trace events : List (Event N V)} {s s' : State N V}
    (h : PromiseInv trace s) {i : N} {r : ℕ}
    (hpromises : s'.promises = Function.update s.promises i ((s.promises i).insert r []))
    (hnet : ∀ a p r, flying s'.network (Packet.IsPromise a p r) =
      flying s.network (Packet.IsPromise a p r)) : PromiseInv (trace ++ events) s' := by
  have hold : ∀ p l ps, s'.promises p l = some ps → s.promises p l = some ps ∨ ps = [] := by
    intro p l ps hps
    rw [hpromises] at hps
    by_cases hp : p = i
    · subst p
      rw [Function.update_self] at hps
      exact insert_nil_eq_some hps
    · rw [Function.update_of_ne hp] at hps
      exact .inl hps
  constructor
  · intro a p l
    rw [hnet]
    exact h.promise_once a p l
  · intro p l ps hps
    rcases hold p l ps hps with hps | rfl
    · exact h.nodup p l ps hps
    · simp
  · intro p l ps hps x hx
    rcases hold p l ps hps with hps | rfl
    · exact List.mem_append_left _ (h.mem p l ps hps x hx)
    · simp at hx
  · intro p l ps hps x hx
    rw [hnet]
    rcases hold p l ps hps with hps | rfl
    · exact h.gone p l ps hps x hx
    · simp at hx

/-- A promise is fresh: its number is above everything its acceptor promised before. -/
theorem PromiseInv.promise {trace events : List (Event N V)} {s s' : State N V}
    (h : PromiseInv trace s) {a p : N} {r k : ℕ} {w : V}
    {rest : Multiset (Packet N V)} (hrest : rest ≤ s.network)
    (hpromises : s'.promises = s.promises)
    (hnet : s'.network = rest + {⟨a, p, .promise r k w⟩})
    (hfresh : ∀ q l u, .promised a q r l u ∉ trace)
    (hsent : SentInv trace s) : PromiseInv (trace ++ events) s' := by
  have hle : ∀ b q l, flying rest (Packet.IsPromise b q l) ≤
      flying s.network (Packet.IsPromise b q l) :=
    fun b q l => flying_le_of_le hrest _
  have hzero : flying s.network (Packet.IsPromise a p r) = 0 := by
    apply flying_eq_zero.mpr
    rintro ⟨src, dst, body⟩ hmem ⟨rfl, rfl, l, u, rfl⟩
    exact hfresh dst l u (hsent.promise _ _ _ _ _ hmem)
  have hother : ∀ b q l, ¬ (a = b ∧ p = q ∧ r = l) →
      flying s'.network (Packet.IsPromise b q l) ≤
        flying s.network (Packet.IsPromise b q l) := by
    intro b q l hne
    rw [hnet, flying_add, flying_singleton_of_neg, Nat.add_zero]
    · exact hle b q l
    · simp only [isPromise_mk, Body.promise.injEq]
      rintro ⟨rfl, rfl, -, -, rfl, -, -⟩
      exact hne ⟨rfl, rfl, rfl⟩
  constructor
  · intro b q l
    by_cases heq : a = b ∧ p = q ∧ r = l
    · obtain ⟨rfl, rfl, rfl⟩ := heq
      rw [hnet, flying_add]
      have h₁ := hle a p r
      have h₂ := flying_singleton_le (⟨a, p, .promise r k w⟩ : Packet N V)
        (Packet.IsPromise a p r)
      omega
    · exact (hother b q l heq).trans (h.promise_once b q l)
  · rw [hpromises]
    exact h.nodup
  · rw [hpromises]
    intro q l ps hps x hx
    exact List.mem_append_left _ (h.mem q l ps hps x hx)
  · rw [hpromises]
    intro q l ps hps x hx
    have hne : ¬ (a = x.1 ∧ p = q ∧ r = l) := by
      rintro ⟨hax, rfl, rfl⟩
      have hmem := h.mem p r ps hps x hx
      rw [← hax] at hmem
      exact hfresh p _ _ hmem
    exact Nat.le_zero.mp ((hother x.1 q l hne).trans (h.gone q l ps hps x hx).le)

/-- Recording a delivered promise: its sender has not been recorded before, because its
only copy was still in flight. -/
theorem PromiseInv.record {trace events : List (Event N V)} {s s' : State N V}
    (h : PromiseInv trace s) (hsent : SentInv trace s) {a p : N} {r k : ℕ} {w : V}
    {ps : List (N × ℕ × V)} {rest : Multiset (Packet N V)}
    (hnet : s.network = ⟨a, p, .promise r k w⟩ ::ₘ rest) (hps : s.promises p r = some ps)
    (hpromises : s'.promises =
      Function.update s.promises p ((s.promises p).assign r (ps ++ [(a, k, w)])))
    (hnet' : ∀ b q l, flying s'.network (Packet.IsPromise b q l) =
      flying rest (Packet.IsPromise b q l)) : PromiseInv (trace ++ events) s' := by
  have hflying : flying s.network (Packet.IsPromise a p r) =
      flying rest (Packet.IsPromise a p r) + 1 := by
    rw [hnet]
    exact flying_cons_of_pos (by simp)
  have hle : ∀ b q l, flying rest (Packet.IsPromise b q l) ≤
      flying s.network (Packet.IsPromise b q l) := by
    intro b q l
    rw [hnet]
    exact flying_le_cons _ _ _
  have hfresh : a ∉ ps.map Prod.fst := by
    intro hmem
    obtain ⟨x, hx, rfl⟩ := List.mem_map.mp hmem
    have := h.gone p r ps hps x hx
    omega
  have hold : ∀ q l qs, s'.promises q l = some qs →
      (q = p ∧ l = r ∧ qs = ps ++ [(a, k, w)]) ∨ s.promises q l = some qs := by
    intro q l qs hqs
    rw [hpromises] at hqs
    exact KeyMap.update_assign_cases hqs
  constructor
  · intro b q l
    rw [hnet']
    exact (hle b q l).trans (h.promise_once b q l)
  · intro q l qs hqs
    rcases hold q l qs hqs with ⟨rfl, rfl, rfl⟩ | hqs
    · rw [List.map_append, List.nodup_append]
      refine ⟨h.nodup q l ps hps, by simp, ?_⟩
      intro b hb c hc heq
      simp only [List.map_cons, List.map_nil, List.mem_singleton] at hc
      subst c b
      exact hfresh hb
    · exact h.nodup q l qs hqs
  · intro q l qs hqs x hx
    apply List.mem_append_left
    rcases hold q l qs hqs with ⟨rfl, rfl, rfl⟩ | hqs
    · rcases List.mem_append.mp hx with hx | hx
      · exact h.mem q l ps hps x hx
      · rw [List.mem_singleton.mp hx]
        exact hsent.promise a q l k w (by simp [hnet])
    · exact h.mem q l qs hqs x hx
  · intro q l qs hqs x hx
    rw [hnet']
    rcases hold q l qs hqs with ⟨rfl, rfl, rfl⟩ | hqs
    · rcases List.mem_append.mp hx with hx | hx
      · exact Nat.le_zero.mp ((hle x.1 q l).trans (h.gone q l ps hps x hx).le)
      · rw [List.mem_singleton.mp hx]
        have := h.promise_once a q l
        dsimp only
        omega
    · exact Nat.le_zero.mp ((hle x.1 q l).trans (h.gone q l qs hqs x hx).le)

variable [Fintype N]

theorem promiseInv_of_run {P : Protocol V} {trace : List (Event N V)} {s : State N V}
    (h : P.system.Run trace s) : PromiseInv trace s := by
  apply h.invariant
  · rintro s rfl
    constructor <;> simp [State.initial, flying]
  · intro trace s events s' hrun ih hstep
    have hacc := acceptorInv_of_run hrun
    have hsent := sentInv_of_run hrun
    cases hstep with
    | lose hnet => exact ih.frame rfl fun a p r => hnet ▸ flying_le_cons _ _ _
    | propose i r v =>
        refine ih.propose rfl fun a p l => ?_
        rw [flying_add, flying_broadcast_of_neg (by simp), Nat.add_zero]
    | promise hnet hr =>
        refine ih.promise (hnet ▸ Multiset.le_cons_self _ _) rfl rfl ?_ hsent
        intro q l u hmem
        exact absurd (hacc.promised_le _ _ _ _ _ hmem) (Nat.not_le_of_gt hr)
    | count hnet hps => exact ih.record hsent hnet hps rfl fun _ _ _ => rfl
    | «open» hnet hps =>
        refine ih.record hsent hnet hps rfl fun b q l => ?_
        rw [flying_add, flying_broadcast_of_neg (by simp), Nat.add_zero]
    | accept hnet =>
        refine ih.frame rfl fun b q l => ?_
        rw [flying_add, flying_broadcast_of_neg (by simp), Nat.add_zero, hnet]
        exact flying_le_cons _ _ _
    | hear hnet => exact ih.frame rfl fun a p r => hnet ▸ flying_le_cons _ _ _
    | learn hnet => exact ih.frame rfl fun a p r => hnet ▸ flying_le_cons _ _ _

/-! ## Opened rounds -/

def Event.IsOpened (r : ℕ) : Event N V → Prop
  | .opened _ l _ => l = r
  | _ => False

/-- The round `r` of `p` was opened with `v`: its promises are complete, and `v` is what
the protocol selects from them. -/
def OpenedBy (P : Protocol V) (s : State N V) (p : N) (r : ℕ) (v : V) : Prop :=
  ∃ ps own, s.promises p r = some ps ∧ ps.length = P.quorum ∧ s.proposal p r = some own ∧
    v = P.select own (ps.map Prod.snd) ∧ P.ok (ps.map Prod.snd)

structure OpenedInv (P : Protocol V) (trace : List (Event N V)) (s : State N V) : Prop where
  opened_by : ∀ p r v, .opened p r v ∈ trace → OpenedBy P s p r v
  opened_once : ∀ r, trace.Pairwise fun e e' => ¬ (e.IsOpened r ∧ e'.IsOpened r)

omit [DecidableEq N] [Fintype N] in
/-- Steps that open nothing and keep complete rounds keep `OpenedInv`. -/
theorem OpenedInv.frame {P : Protocol V} {trace events : List (Event N V)} {s s' : State N V}
    (h : OpenedInv P trace s) (hevents : ∀ e ∈ events, ∀ r, ¬ e.IsOpened r)
    (hkeep : ∀ p r v, OpenedBy P s p r v → OpenedBy P s' p r v) :
    OpenedInv P (trace ++ events) s' := by
  constructor
  · intro p r v hmem
    rcases List.mem_append.mp hmem with hmem | hmem
    · exact hkeep p r v (h.opened_by p r v hmem)
    · exact absurd rfl (hevents _ hmem r)
  · intro r
    refine List.pairwise_append.mpr ⟨h.opened_once r, ?_, ?_⟩
    · exact List.pairwise_of_forall_mem_list fun e he _ _ hpair => hevents e he r hpair.1
    · exact fun _ _ e' he' hpair => hevents e' he' r hpair.2

omit [Fintype N] in
/-- Proposing again under the number of an open round changes nothing for it. -/
theorem OpenedBy.propose {P : Protocol V} {s : State N V} {p : N} {r : ℕ} {v : V}
    (h : OpenedBy P s p r v) (i : N) (l : ℕ) (u : V) (network : Multiset (Packet N V)) :
    OpenedBy P
      { s with
        proposal := Function.update s.proposal i ((s.proposal i).insert l u)
        promises := Function.update s.promises i ((s.promises i).insert l [])
        network := network } p r v := by
  obtain ⟨ps, own, hps, hlength, hown, hv, hok⟩ := h
  refine ⟨ps, own, ?_, hlength, ?_, hv, hok⟩
  · by_cases hp : p = i
    · subst p
      simpa using KeyMap.insert_of_some hps
    · simpa [hp] using hps
  · by_cases hp : p = i
    · subst p
      simpa using KeyMap.insert_of_some hown
    · simpa [hp] using hown

omit [Fintype N] in
/-- A promise is only recorded in a round that is not complete. -/
theorem OpenedBy.record {P : Protocol V} {s : State N V} {p q : N} {r l : ℕ} {v : V}
    {ps : List (N × ℕ × V)} (h : OpenedBy P s p r v) (hps : s.promises q l = some ps)
    (hlt : ps.length < P.quorum) (x : N × ℕ × V) (network : Multiset (Packet N V)) :
    OpenedBy P
      { s with
        promises := Function.update s.promises q ((s.promises q).assign l (ps ++ [x]))
        network := network } p r v := by
  obtain ⟨qs, own, hqs, hlength, hown, hv, hok⟩ := h
  refine ⟨qs, own, ?_, hlength, hown, hv, hok⟩
  by_cases hp : p = q
  · subst p
    have hr : r ≠ l := by
      rintro rfl
      rw [hps] at hqs
      obtain rfl := Option.some.inj hqs
      omega
    simpa [KeyMap.assign_of_ne _ _ hr] using hqs
  · simpa [hp] using hqs

/-- Two rounds with one number would share an acceptor that promised it twice. -/
theorem not_openedBy {P : Protocol V} (hq : Fintype.card N < 2 * P.quorum)
    {trace : List (Event N V)} {s : State N V} (hpromise : PromiseInv trace s)
    (hacc : AcceptorInv trace s) (hsent : SentInv trace s) {a p : N} {r k : ℕ} {w : V}
    {ps : List (N × ℕ × V)} {rest : Multiset (Packet N V)}
    (hnet : s.network = ⟨a, p, .promise r k w⟩ ::ₘ rest) (hps : s.promises p r = some ps)
    (hfull : ps.length + 1 = P.quorum) (q : N) (v : V) : ¬ OpenedBy P s q r v := by
  rintro ⟨qs, own, hqs, hlength, -⟩
  have hpq : q ≠ p := by
    rintro rfl
    rw [hps] at hqs
    obtain rfl := Option.some.inj hqs
    omega
  -- the delivered promise counts for `p`, so both rounds have a majority
  have hrecord : PromiseInv (trace ++ [])
      { s with
        promises :=
          Function.update s.promises p ((s.promises p).assign r (ps ++ [(a, k, w)]))
        network := rest } :=
    hpromise.record hsent hnet hps rfl fun _ _ _ => rfl
  have hpnodup := hrecord.nodup p r (ps ++ [(a, k, w)]) (by simp)
  have hpmem := hrecord.mem p r (ps ++ [(a, k, w)]) (by simp)
  obtain ⟨b, hbp, hbq⟩ := Voting.exists_mem_of_majority_lists hq hpnodup
    (hpromise.nodup q r qs hqs) (by simp [hfull]) (by simp [hlength])
  obtain ⟨x, hx, rfl⟩ := List.mem_map.mp hbp
  obtain ⟨y, hy, hxy⟩ := List.mem_map.mp hbq
  have h₁ := hpmem x hx
  have h₂ := hpromise.mem q r qs hqs y hy
  rw [List.append_nil] at h₁
  rw [hxy] at h₂
  exact hpq (hacc.promised_unique _ _ _ _ _ _ _ _ h₂ h₁).1

theorem openedInv_of_run {P : Protocol V} (hq : Fintype.card N < 2 * P.quorum)
    {trace : List (Event N V)} {s : State N V} (h : P.system.Run trace s) :
    OpenedInv P trace s := by
  apply h.invariant
  · rintro s rfl
    constructor <;> simp
  · intro trace s events s' hrun ih hstep
    cases hstep with
    | propose i r v =>
        exact ih.frame (by simp [Event.IsOpened]) fun p l u hopen => hopen.propose i r v _
    | count hnet hps hlt =>
        exact ih.frame (by simp) fun p l u hopen =>
          hopen.record hps ((Nat.lt_succ_self _).trans hlt) _ _
    | @«open» a p r k w ps own rest hnet hps hfull hown hok =>
        have hnone := not_openedBy hq (promiseInv_of_run hrun) (acceptorInv_of_run hrun)
          (sentInv_of_run hrun) hnet hps hfull
        constructor
        · intro q l v hmem
          simp only [List.mem_append, List.mem_singleton, Event.opened.injEq] at hmem
          rcases hmem with hmem | ⟨rfl, rfl, rfl⟩
          · exact (ih.opened_by q l v hmem).record hps
              ((Nat.lt_succ_self _).trans_le hfull.le) _ _
          · exact ⟨ps ++ [(a, k, w)], own, by simp, by simp [hfull], hown, rfl, hok⟩
        · intro l
          refine List.pairwise_append.mpr ⟨ih.opened_once l, by simp, ?_⟩
          rintro e he e' he' ⟨hel, hel'⟩
          rw [List.mem_singleton.mp he'] at hel'
          obtain rfl : r = l := hel'
          cases e with
          | opened q l v =>
              obtain rfl : l = r := hel
              exact hnone q v (ih.opened_by q l v he)
          | _ => exact hel
    | lose => exact ih.frame (by simp) fun _ _ _ hopen => hopen
    | promise => exact ih.frame (by simp [Event.IsOpened]) fun _ _ _ hopen => hopen
    | accept => exact ih.frame (by simp [Event.IsOpened]) fun _ _ _ hopen => hopen
    | hear => exact ih.frame (by simp) fun _ _ _ hopen => hopen
    | learn => exact ih.frame (by simp [Event.IsOpened]) fun _ _ _ hopen => hopen

omit [DecidableEq N] [Fintype N] in
/-- A round is opened by one node, with one value. -/
theorem OpenedInv.opened_unique {P : Protocol V} {trace : List (Event N V)} {s : State N V}
    (h : OpenedInv P trace s) {p p' : N} {r : ℕ} {v v' : V}
    (hv : .opened p r v ∈ trace) (hv' : .opened p' r v' ∈ trace) : p = p' ∧ v = v' := by
  by_contra hne
  have hsymm : Std.Symm fun e e' : Event N V => ¬ (e.IsOpened r ∧ e'.IsOpened r) :=
    ⟨fun _ _ hpair h' => hpair h'.symm⟩
  have hev : (.opened p r v : Event N V) ≠ .opened p' r v' := by
    intro heq
    injection heq with h₁ _ h₂
    exact hne ⟨h₁, h₂⟩
  exact (h.opened_once r).forall hv hv' hev ⟨rfl, rfl⟩

end Synod
