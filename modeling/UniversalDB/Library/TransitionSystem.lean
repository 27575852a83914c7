import Mathlib.Data.List.Basic
import Mathlib.Data.List.Induction
import Mathlib.Logic.Relation

/-! # Labelled transition systems, their runs, and forward simulation

A run is recorded by the events its steps show, oldest first. Properties that speak
about the past of a run are therefore properties of a trace and a state. -/

/-- An event of a trace that is followed by further events is one of them or was there
before. -/
theorem append_eq_append_cons {α : Type*} {past events before after : List α} {e : α}
    (h : past ++ events = before ++ e :: after) :
    (∃ pre, before = past ++ pre ∧ events = pre ++ e :: after) ∨
      ∃ tail, past = before ++ e :: tail ∧ after = tail ++ events := by
  rcases List.append_eq_append_iff.mp h with ⟨pre, hpre, hevents⟩ | ⟨tail, htrace, htail⟩
  · exact .inl ⟨pre, hpre, hevents⟩
  · cases tail with
    | nil => exact .inl ⟨[], by simpa using htrace.symm, htail.symm⟩
    | cons e' tail =>
        rw [List.cons_append, List.cons.injEq] at htail
        obtain ⟨rfl, hafter⟩ := htail
        exact .inr ⟨tail, htrace, hafter⟩

/-- An event of a trace with one event more is the last one or was there before. -/
theorem concat_eq_append_cons {α : Type*} {past before after : List α} {e e' : α}
    (h : past ++ [e'] = before ++ e :: after) :
    (before = past ∧ e = e' ∧ after = []) ∨
      ∃ tail, past = before ++ e :: tail ∧ after = tail ++ [e'] := by
  rcases append_eq_append_cons h with ⟨pre, hbefore, hlast⟩ | htail
  · rw [List.singleton_eq_append_iff] at hlast
    rcases hlast with ⟨rfl, hcons⟩ | ⟨-, hnil⟩
    · cases hcons
      exact .inl ⟨by simpa using hbefore, rfl, rfl⟩
    · cases hnil
  · exact .inr htail

/-- What is taken out of a list at a position is the element there. -/
theorem mem_eraseIdx_of_ne {α : Type*} {l : List α} {position : ℕ} {a b : α}
    (ha : l[position]? = some a) (hb : b ∈ l) (hne : b ≠ a) : b ∈ l.eraseIdx position := by
  obtain ⟨i, hi⟩ := List.getElem?_of_mem hb
  refine List.mem_eraseIdx_iff_getElem?.mpr ⟨i, ?_, hi⟩
  rintro rfl
  exact hne (Option.some.inj (hi.symm.trans ha))

/-- `P e after` holds of every event of a trace and the events after it. -/
def Followed {α : Type*} (P : α → List α → Prop) (trace : List α) : Prop :=
  ∀ before e after, trace = before ++ e :: after → P e after

section
variable {α : Type*} {P : α → List α → Prop}

theorem followed_of_forall {trace : List α} (h : ∀ e ∈ trace, ∀ after, P e after) :
    Followed P trace := by
  intro before e after heq
  exact h e (by simp [heq]) after

theorem followed_cons {e : α} {trace : List α} :
    Followed P (e :: trace) ↔ P e trace ∧ Followed P trace := by
  constructor
  · intro h
    refine ⟨h [] e trace rfl, ?_⟩
    intro before e' after heq
    exact h (e :: before) e' after (by rw [heq, List.cons_append])
  · rintro ⟨hhead, htail⟩ before e' after heq
    cases before with
    | nil =>
        obtain ⟨rfl, rfl⟩ := List.cons.inj heq
        exact hhead
    | cons e'' before => exact htail before e' after (List.cons.inj heq).2

/-- Further events do no harm to what only asks for events to follow. -/
theorem Followed.append (hmono : ∀ e after more, P e after → P e (after ++ more))
    {trace events : List α} (h : Followed P trace) (h' : Followed P events) :
    Followed P (trace ++ events) := by
  intro before e after heq
  rcases append_eq_append_cons heq with ⟨pre, -, hsplit⟩ | ⟨tail, hsplit, rfl⟩
  · exact h' pre e after hsplit
  · exact hmono e tail events (h before e tail hsplit)

end

/-- A transition system whose steps show a list of events. -/
structure TransitionSystem (σ ε : Type*) where
  init : σ → Prop
  step : σ → List ε → σ → Prop

namespace TransitionSystem

variable {σ ε τ δ : Type*}

/-- `S.Run trace s` holds when a finite number of steps leads from an initial state
to `s` and shows `trace`. -/
inductive Run (S : TransitionSystem σ ε) : List ε → σ → Prop where
  | start {s} : S.init s → S.Run [] s
  | step {trace s events s'} : S.Run trace s → S.step s events s' →
      S.Run (trace ++ events) s'

/-- The invariant rule. A step may use that its source state is reachable, so
invariants can be established one after the other. -/
theorem Run.invariant {S : TransitionSystem σ ε} {I : List ε → σ → Prop}
    (hinit : ∀ s, S.init s → I [] s)
    (hstep : ∀ trace s events s', S.Run trace s → I trace s → S.step s events s' →
      I (trace ++ events) s')
    {trace : List ε} {s : σ} (h : S.Run trace s) : I trace s := by
  induction h with
  | start hs => exact hinit _ hs
  | step hrun hs ih => exact hstep _ _ _ _ hrun ih hs

/-- An event of a run is shown by one of its steps. -/
theorem Run.split {S : TransitionSystem σ ε} {trace : List ε} {s : σ} (h : S.Run trace s)
    {before after : List ε} {e : ε} (heq : trace = before ++ e :: after) :
    ∃ past s₀ events s₁ pre post, S.Run past s₀ ∧ S.step s₀ events s₁ ∧
      events = pre ++ e :: post ∧ before = past ++ pre := by
  induction h generalizing after with
  | start hs => simp at heq
  | @step trace s₀ events s₁ hrun hs ih =>
      rcases append_eq_append_cons heq with ⟨pre, hbefore, hevents⟩ | ⟨tail, htrace, -⟩
      · exact ⟨trace, s₀, events, s₁, pre, after, hrun, hs, hevents, hbefore⟩
      · exact ih htrace

/-- Forward simulation with stuttering. `view` says what a concrete event shows to
the abstract observer. -/
theorem Run.simulate {S : TransitionSystem σ ε} {T : TransitionSystem τ δ}
    (R : σ → τ → Prop) (view : ε → Option δ)
    (hinit : ∀ s, S.init s → ∃ t, T.init t ∧ R s t)
    (hstep : ∀ trace s t events s', S.Run trace s → R s t → S.step s events s' →
      (events.filterMap view = [] ∧ R s' t) ∨
        ∃ t', T.step t (events.filterMap view) t' ∧ R s' t')
    {trace : List ε} {s : σ} (h : S.Run trace s) :
    ∃ t, T.Run (trace.filterMap view) t ∧ R s t := by
  induction h with
  | start hs =>
      obtain ⟨t, ht, hR⟩ := hinit _ hs
      exact ⟨t, .start ht, hR⟩
  | step hrun hs ih =>
      obtain ⟨t, ht, hR⟩ := ih
      rcases hstep _ _ _ _ _ hrun hR hs with ⟨hnil, hR'⟩ | ⟨t', hstep', hR'⟩
      · refine ⟨t, ?_, hR'⟩
        simpa [List.filterMap_append, hnil] using ht
      · refine ⟨t', ?_, hR'⟩
        simpa [List.filterMap_append] using ht.step hstep'

/-- Some number of steps leads from the first state to the second one. -/
def Leads (S : TransitionSystem σ ε) : σ → σ → Prop :=
  Relation.ReflTransGen fun s s' => ∃ events, S.step s events s'

section Leads

variable {S : TransitionSystem σ ε} {s s' s'' : σ}

theorem Leads.refl (s : σ) : S.Leads s s := Relation.ReflTransGen.refl

theorem Leads.trans (h : S.Leads s s') (h' : S.Leads s' s'') : S.Leads s s'' :=
  Relation.ReflTransGen.trans h h'

theorem Leads.of_step {events : List ε} (h : S.step s events s') : S.Leads s s' :=
  Relation.ReflTransGen.single ⟨events, h⟩

/-- A run goes on with the steps that lead on from its end. -/
theorem Leads.run {T : TransitionSystem σ ε}
    (hsub : ∀ s events s', S.step s events s' → T.step s events s') (h : S.Leads s s')
    {trace : List ε} (hrun : T.Run trace s) : ∃ trace', T.Run trace' s' := by
  induction h with
  | refl => exact ⟨trace, hrun⟩
  | tail _ hs ih =>
      obtain ⟨events, hstep⟩ := hs
      obtain ⟨trace', hrun'⟩ := ih
      exact ⟨trace' ++ events, hrun'.step (hsub _ _ _ hstep)⟩

/-- The rule for a loop over a list: if each round leads on to a state in which one element
more is done, then all elements get done. -/
theorem Leads.forEach {β : Type*} {I : List β → σ → Prop} {l : List β}
    (hround : ∀ done b rest s, l = done ++ b :: rest → I done s →
      ∃ s', S.Leads s s' ∧ I (done ++ [b]) s')
    {s : σ} (h : I [] s) : ∃ s', S.Leads s s' ∧ I l s' := by
  have hdone : ∀ done rest, l = done ++ rest → ∃ s', S.Leads s s' ∧ I done s' := by
    intro done
    induction done using List.reverseRecOn with
    | nil => exact fun _ _ => ⟨s, .refl s, h⟩
    | append_singleton done b ih =>
        intro rest hl
        rw [List.append_assoc, List.singleton_append] at hl
        obtain ⟨s₁, hleads₁, h₁⟩ := ih _ hl
        obtain ⟨s₂, hleads₂, h₂⟩ := hround done b rest s₁ hl h₁
        exact ⟨s₂, hleads₁.trans hleads₂, h₂⟩
  exact hdone l [] (List.append_nil l).symm

end Leads

end TransitionSystem

/-- A system given by a function from actions: an action that is not enabled has no
successor. -/
structure Machine (σ α ε : Type*) where
  init : σ
  next : σ → α → Option (List ε × σ)

namespace Machine

variable {σ α ε : Type*}

/-- The runs of a machine whose actions all meet `ok` in the state they start from. -/
def guarded (M : Machine σ α ε) (ok : σ → α → Prop) : TransitionSystem σ ε where
  init s := s = M.init
  step s events s' := ∃ a, ok s a ∧ M.next s a = some (events, s')

/-- All runs of a machine. -/
def system (M : Machine σ α ε) : TransitionSystem σ ε :=
  M.guarded fun _ _ => True

/-- A weaker guard allows more runs. -/
theorem guarded_mono {M : Machine σ α ε} {ok ok' : σ → α → Prop} (hok : ∀ s a, ok s a → ok' s a)
    {trace : List ε} {s : σ} (h : (M.guarded ok).Run trace s) : (M.guarded ok').Run trace s := by
  induction h with
  | start hs => exact .start hs
  | @step _ s _ _ _ hs ih =>
      obtain ⟨a, ha, hnext⟩ := hs
      exact .step ih ⟨a, hok s a ha, hnext⟩

theorem run_of_guarded {M : Machine σ α ε} {ok : σ → α → Prop} {trace : List ε} {s : σ}
    (h : (M.guarded ok).Run trace s) : M.system.Run trace s :=
  guarded_mono (fun _ _ _ => trivial) h

/-- A guard that always holds restricts nothing. -/
theorem guarded_of_run {M : Machine σ α ε} {ok : σ → α → Prop} (hok : ∀ s a, ok s a)
    {trace : List ε} {s : σ} (h : M.system.Run trace s) : (M.guarded ok).Run trace s :=
  guarded_mono (fun s a _ => hok s a) h

/-- What a machine does, another one does under other names for its states and actions. -/
theorem run_rename {σ' α' : Type*} {M : Machine σ α ε} {M' : Machine σ' α' ε} (state : σ → σ')
    (action : α → α') (hinit : state M.init = M'.init)
    (hnext : ∀ {s a events s'}, M.next s a = some (events, s') →
      M'.next (state s) (action a) = some (events, state s'))
    {trace : List ε} {s : σ} (h : M.system.Run trace s) : M'.system.Run trace (state s) := by
  induction h with
  | start hs =>
      cases hs
      exact .start hinit
  | step _ hs ih =>
      obtain ⟨a, -, hstep⟩ := hs
      exact ih.step ⟨action a, trivial, hnext hstep⟩

/-- Executes a list of actions, giving up at the first one that is not enabled. -/
def exec (M : Machine σ α ε) (s : σ) : List α → Option (List ε × σ)
  | [] => some ([], s)
  | a :: actions =>
      match M.next s a with
      | none => none
      | some (events, s') =>
          match M.exec s' actions with
          | none => none
          | some (rest, s'') => some (events ++ rest, s'')

theorem run_of_exec_from (M : Machine σ α ε) (actions : List α) :
    ∀ {trace : List ε} {s : σ} {events : List ε} {s' : σ}, M.system.Run trace s →
      M.exec s actions = some (events, s') → M.system.Run (trace ++ events) s' := by
  induction actions with
  | nil =>
      intro trace s events s' hrun h
      simp only [exec, Option.some.injEq, Prod.mk.injEq] at h
      obtain ⟨rfl, rfl⟩ := h
      simpa using hrun
  | cons a actions ih =>
      intro trace s events s' hrun h
      simp only [exec] at h
      split at h
      · cases h
      · rename_i shown s₁ hnext
        split at h
        · cases h
        · rename_i rest s₂ hrest
          simp only [Option.some.injEq, Prod.mk.injEq] at h
          obtain ⟨rfl, rfl⟩ := h
          have hrun₁ : M.system.Run (trace ++ shown) s₁ := hrun.step ⟨a, trivial, hnext⟩
          simpa [List.append_assoc] using ih hrun₁ hrest

/-- Executing actions from the initial state gives a run. -/
theorem run_of_exec (M : Machine σ α ε) {actions : List α} {trace : List ε} {s : σ}
    (h : M.exec M.init actions = some (trace, s)) : M.system.Run trace s := by
  simpa using M.run_of_exec_from actions (.start rfl) h

/-- The machine in which an action that does not meet `ok` is not enabled. -/
def restrict (M : Machine σ α ε) (ok : σ → α → Prop) [∀ s a, Decidable (ok s a)] :
    Machine σ α ε where
  init := M.init
  next s a := if ok s a then M.next s a else none

theorem guarded_of_restrict {M : Machine σ α ε} {ok : σ → α → Prop}
    [∀ s a, Decidable (ok s a)] {trace : List ε} {s : σ}
    (h : (M.restrict ok).system.Run trace s) : (M.guarded ok).Run trace s := by
  induction h with
  | start hs => exact .start hs
  | step _ hs ih =>
      obtain ⟨a, -, hnext⟩ := hs
      simp only [restrict] at hnext
      split at hnext
      · rename_i hok
        exact .step ih ⟨a, hok, hnext⟩
      · cases hnext

/-- A run of given actions, for a result that can be evaluated. -/
theorem exists_run (M : Machine σ α ε) (actions : List α) {p : List ε × σ → Prop}
    (h : ∃ r ∈ M.exec M.init actions, p r) :
    ∃ trace s, M.system.Run trace s ∧ p (trace, s) := by
  obtain ⟨⟨trace, s⟩, hexec, hp⟩ := h
  exact ⟨trace, s, M.run_of_exec hexec, hp⟩

end Machine
