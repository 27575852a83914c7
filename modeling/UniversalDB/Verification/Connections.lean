import UniversalDB.Model.Connections

/-! # `Connections` keeps the open channels

`_channels` has one place for each endpoint id, so it holds every open channel as long as
no two of them report the same one. -/

namespace UniversalDB.Connections

variable {γ : Type} {endpointId : γ → EndpointId}

/-- What is asked of the connections after a trace. -/
structure Kept (endpointId : γ → EndpointId) (trace : List (Event γ)) (n : Network γ) :
    Prop where
  owned : ∀ channel ∈ n.openChannels, ∃ e, n.connections.channels.lookup e = some channel
  /-- A close takes out the channel that closes. -/
  closed : ∀ channel removed, .closed channel removed ∈ trace → removed = some channel
  getChannel : ∀ channel ∈ n.openChannels, ∃ found ∈ n.openChannels,
    n.connections.getChannel (endpointId channel) = some found ∧
      endpointId found = endpointId channel
  /-- No close callback has terminated. -/
  exception : n.exception = none

/-- A channel that is added does not meet an open one with its endpoint id. -/
def Apart (endpointId : γ → EndpointId) (n : Network γ) : Action γ → Prop
  | .addChannel channel => ∀ other ∈ n.openChannels, endpointId other ≠ endpointId channel
  | .close _ => True

instance (endpointId : γ → EndpointId) (n : Network γ) (a : Action γ) :
    Decidable (Apart endpointId n a) :=
  match a with
  | .addChannel channel =>
      inferInstanceAs (Decidable (∀ other ∈ n.openChannels, endpointId other ≠ endpointId channel))
  | .close _ => .isTrue trivial

/-! ## Steps -/

/-- The channels that are owned are the open ones. -/
def Exact (endpointId : γ → EndpointId) (n : Network γ) : Prop :=
  ∀ e channel, n.connections.channels.lookup e = some channel ↔
    channel ∈ n.openChannels ∧ endpointId channel = e

/-- What a step of connections without an exception does. -/
theorem next_cases [DecidableEq γ] {n n' : Network γ} {a : Action γ} {events : List (Event γ)}
    (hnext : next endpointId n a = some (events, n')) :
    n.exception = none ∧
      ((∃ channel, a = .addChannel channel ∧ channel ∉ n.openChannels ∧
          events = [.added channel] ∧
          n' = { n with
            connections := n.connections.addChannel (endpointId channel) channel
            openChannels := n.openChannels ++ [channel] }) ∨
        ∃ channel, a = .close channel ∧ channel ∈ n.openChannels ∧
          n'.openChannels = n.openChannels.filter (· ≠ channel) ∧
          match n.connections.channels.lookup (endpointId channel) with
          | some removed => events = [.closed channel (some removed)] ∧
              n'.connections.channels = n.connections.channels.erase (endpointId channel) ∧
              n'.exception = none
          | none => events = [.closed channel none] ∧ n'.exception.isSome) := by
  unfold next at hnext
  split at hnext
  · cases hnext
  · rename_i hexception
    refine ⟨by simpa using hexception, ?_⟩
    cases a with
    | addChannel channel =>
        simp only at hnext
        split at hnext
        · cases hnext
        · rename_i hfresh
          simp only [Option.some.injEq, Prod.mk.injEq] at hnext
          obtain ⟨rfl, rfl⟩ := hnext
          exact .inl ⟨channel, rfl, fun hopen => hfresh (.inl hopen), rfl, rfl⟩
    | close channel =>
        simp only at hnext
        split at hnext
        · rename_i hopen
          refine .inr ⟨channel, rfl, hopen, ?_⟩
          cases hlookup : n.connections.channels.lookup (endpointId channel) with
          | none =>
              simp only [closeCallback, hlookup, universalTerminate, Option.some.injEq,
                Prod.mk.injEq] at hnext
              obtain ⟨rfl, rfl⟩ := hnext
              exact ⟨rfl, rfl, rfl⟩
          | some removed =>
              simp only [closeCallback, hlookup, pure, Except.pure, Option.some.injEq,
                Prod.mk.injEq] at hnext
              obtain ⟨rfl, rfl⟩ := hnext
              exact ⟨rfl, rfl, rfl, by simpa using hexception⟩
        · cases hnext

/-- There is no entry for the endpoint id of a channel that meets no other one. -/
theorem Exact.lookup_of_apart {n : Network γ} (h : Exact endpointId n) {channel : γ}
    (hapart : Apart endpointId n (.addChannel channel)) :
    n.connections.channels.lookup (endpointId channel) = none := by
  cases hlookup : n.connections.channels.lookup (endpointId channel) with
  | none => rfl
  | some other =>
      obtain ⟨hopen, heq⟩ := (h _ other).mp hlookup
      exact absurd heq (hapart other hopen)

theorem Exact.addChannel {n : Network γ} (h : Exact endpointId n) {channel : γ}
    (hapart : Apart endpointId n (.addChannel channel)) :
    Exact endpointId { n with
      connections := n.connections.addChannel (endpointId channel) channel
      openChannels := n.openChannels ++ [channel] } := by
  have hnone := h.lookup_of_apart hapart
  intro e other
  have hother := h e other
  simp only [Connections.addChannel, UnorderedMap.lookup_insertNew, hnone, Option.getD_none,
    List.mem_append, List.mem_singleton]
  by_cases he : e = endpointId channel
  · subst e
    simp only [if_true, Option.some.injEq]
    constructor
    · rintro rfl
      exact ⟨.inr rfl, rfl⟩
    · rintro ⟨hopen | rfl, heq⟩
      · exact absurd heq (hapart other hopen)
      · rfl
  · rw [if_neg he, hother]
    constructor
    · rintro ⟨hopen, heq⟩
      exact ⟨.inl hopen, heq⟩
    · rintro ⟨hopen | rfl, heq⟩
      · exact ⟨hopen, heq⟩
      · exact absurd heq.symm he

theorem Exact.close [DecidableEq γ] {n n' : Network γ} (h : Exact endpointId n) {channel : γ}
    (hopen : channel ∈ n.openChannels)
    (hchannels : n'.connections.channels = n.connections.channels.erase (endpointId channel))
    (hopenChannels : n'.openChannels = n.openChannels.filter (· ≠ channel)) :
    Exact endpointId n' := by
  have hlookup := (h _ channel).mpr ⟨hopen, rfl⟩
  intro e other
  rw [hchannels, hopenChannels, UnorderedMap.lookup_erase]
  simp only [List.mem_filter, decide_eq_true_eq]
  by_cases he : e = endpointId channel
  · subst e
    simp only [if_true, reduceCtorEq, false_iff, not_and]
    rintro ⟨hother, hne⟩ heq
    have hboth := (h _ other).mpr ⟨hother, heq⟩
    rw [hlookup] at hboth
    exact hne (Option.some.inj hboth).symm
  · rw [if_neg he, h]
    constructor
    · rintro ⟨hother, heq⟩
      refine ⟨⟨hother, ?_⟩, heq⟩
      rintro rfl
      exact he heq.symm
    · rintro ⟨⟨hother, -⟩, heq⟩
      exact ⟨hother, heq⟩

/-! ## Runs -/

/-- What carries `Kept` over a step. -/
structure Inv (endpointId : γ → EndpointId) (trace : List (Event γ)) (n : Network γ) :
    Prop where
  exact : Exact endpointId n
  closed : ∀ channel removed, .closed channel removed ∈ trace → removed = some channel
  exception : n.exception = none

theorem Inv.kept {trace : List (Event γ)} {n : Network γ} (h : Inv endpointId trace n) :
    Kept endpointId trace n := by
  refine ⟨?_, h.closed, ?_, h.exception⟩
  · intro channel hopen
    exact ⟨endpointId channel, (h.exact _ channel).mpr ⟨hopen, rfl⟩⟩
  · intro channel hopen
    exact ⟨channel, hopen, (h.exact _ channel).mpr ⟨hopen, rfl⟩, rfl⟩

theorem Inv.step [DecidableEq γ] {trace events : List (Event γ)} {n n' : Network γ}
    (h : Inv endpointId trace n) {a : Action γ} (hapart : Apart endpointId n a)
    (hnext : next endpointId n a = some (events, n')) :
    Inv endpointId (trace ++ events) n' := by
  obtain ⟨-, ⟨channel, rfl, -, rfl, rfl⟩ | ⟨channel, rfl, hopen, hopenChannels, hlookup⟩⟩ :=
    next_cases hnext
  · refine ⟨h.exact.addChannel hapart, ?_, h.exception⟩
    simpa using h.closed
  · rw [(h.exact _ channel).mpr ⟨hopen, rfl⟩] at hlookup
    obtain ⟨rfl, hchannels, hexception⟩ := hlookup
    refine ⟨h.exact.close hopen hchannels hopenChannels, ?_, hexception⟩
    intro other removed hmem
    rcases List.mem_append.mp hmem with hmem | hmem
    · exact h.closed other removed hmem
    · cases List.mem_singleton.mp hmem
      rfl

theorem inv_of_run [DecidableEq γ] {trace : List (Event γ)} {n : Network γ}
    (h : ((machine endpointId).guarded (Apart endpointId)).Run trace n) :
    Inv endpointId trace n := by
  refine h.invariant (I := Inv endpointId) ?_ ?_
  · intro n hn
    cases hn
    refine ⟨?_, by simp, rfl⟩
    intro e channel
    simp [machine, new]
  · intro trace n events n' _ hinv hstep
    obtain ⟨a, hapart, hnext⟩ := hstep
    exact hinv.step hapart hnext

/-- A channel that meets an open one with its endpoint id is not owned after it has been
added. -/
theorem Inv.not_owned {trace : List (Event γ)} {n : Network γ} (h : Inv endpointId trace n)
    {channel other : γ} (hnew : channel ∉ n.openChannels) (hother : other ∈ n.openChannels)
    (heq : endpointId other = endpointId channel) (e : EndpointId) :
    (n.connections.addChannel (endpointId channel) channel).channels.lookup e ≠ some channel := by
  have hlookup := (h.exact _ other).mpr ⟨hother, heq⟩
  simp only [addChannel, UnorderedMap.lookup_insertNew, hlookup, Option.getD_some]
  split
  · intro hsome
    cases hsome
    exact hnew hother
  · intro hsome
    exact hnew ((h.exact e channel).mp hsome).1

/-- The connections are kept as long as no channel is added that meets an open one with its
endpoint id, and the first such channel breaks them. -/
theorem kept_iff_apart [DecidableEq γ] {trace : List (Event γ)} {n : Network γ}
    (h : ((machine endpointId).guarded (Apart endpointId)).Run trace n) :
    Kept endpointId trace n ∧ ∀ a events n', next endpointId n a = some (events, n') →
      (Kept endpointId (trace ++ events) n' ↔ Apart endpointId n a) := by
  have hinv := inv_of_run h
  refine ⟨hinv.kept, ?_⟩
  intro a events n' hnext
  constructor
  · intro hkept
    obtain ⟨-, ⟨channel, rfl, hnew, -, rfl⟩ | ⟨channel, rfl, -, -, -⟩⟩ := next_cases hnext
    · intro other hother heq
      obtain ⟨e, howned⟩ := hkept.owned channel (by simp)
      exact hinv.not_owned hnew hother heq e howned
    · trivial
  · intro hapart
    exact (hinv.step hapart hnext).kept

/-! ## Two connections from one address -/

def first : ChannelImpl := ⟨0, ⟨"172.19.0.3", 40000⟩⟩
def second : ChannelImpl := ⟨1, ⟨"172.19.0.3", 40001⟩⟩
def third : ChannelImpl := ⟨2, ⟨"172.19.0.4", 40000⟩⟩

/-- An address that connects again after its connection has closed. -/
theorem kept_iff_apart_sample : ∃ trace n,
    Kept ChannelImpl.endpointId trace n ∧ n.openChannels = [third, second] ∧
      ∀ a events n', next ChannelImpl.endpointId n a = some (events, n') →
        (Kept ChannelImpl.endpointId (trace ++ events) n' ↔ Apart ChannelImpl.endpointId n a) := by
  obtain ⟨trace, n, hrun, hopen⟩ :=
    ((machine ChannelImpl.endpointId).restrict (Apart ChannelImpl.endpointId)).exists_run
      (p := fun r => r.2.openChannels = [third, second])
      [.addChannel first, .addChannel third, .close first, .addChannel second]
      (by decide +kernel)
  obtain ⟨hkept, hiff⟩ := kept_iff_apart (Machine.guarded_of_restrict hrun)
  exact ⟨trace, n, hkept, hopen, hiff⟩

/-- The second connection from an address is open and is not owned. -/
theorem not_kept : ¬ ∀ trace n, (machine ChannelImpl.endpointId).system.Run trace n →
    Kept ChannelImpl.endpointId trace n := by
  intro hkept
  obtain ⟨trace, n, hrun, hopen, hentries⟩ := (machine ChannelImpl.endpointId).exists_run
    (p := fun r => second ∈ r.2.openChannels ∧
      ∀ entry ∈ r.2.connections.channels.entries, entry.2 ≠ second)
    [.addChannel first, .addChannel second] (by decide +kernel)
  obtain ⟨e, howned⟩ := (hkept trace n hrun).owned second hopen
  exact hentries ⟨e, second⟩ (AList.mem_lookup_iff.mp howned) rfl

end UniversalDB.Connections
