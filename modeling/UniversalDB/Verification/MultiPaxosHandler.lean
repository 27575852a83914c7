import UniversalDB.Verification.LogSyncer.Responses
import UniversalDB.Verification.SinglePaxosHandler

/-! # The index that a message is built for

A log index has 64 bits, and so have the indices of a request of a `LogSyncer`. The index
of a Paxos message and the index of an entry in a response have 32. -/

namespace UniversalDB.MultiPaxosHandler

/-- What is sent about one index of the log. -/
inductive Kind where
  | prepare
  | promise
  | accept
  | learn
  | syncEntry
deriving DecidableEq, Repr

inductive Traffic where
  | paxosMessage (message : PaxosMessage)
  | syncEntry (entryWithIndex : PaxosLogEntryWithIndex)

def Traffic.index : Traffic → UInt32
  | .paxosMessage message => message.paxosIndex
  | .syncEntry entryWithIndex => entryWithIndex.index

/-- The traffic that is built for index `i`: the messages that the instance for `i` hands
to its connections, and what `build_sync_response` adds for `i` to a response. -/
inductive Built (i : ℕ) : Kind → Traffic → Prop where
  | prepare {h : SinglePaxosHandler EndpointId} (hi : h.paxosLogIndex = i) {draw entry endpoints
      message} (hsent : .broadcast endpoints message ∈ (h.propose draw entry).2) :
      Built i .prepare (.paxosMessage message)
  | promise {h : SinglePaxosHandler EndpointId} (hi : h.paxosLogIndex = i) {src rnd dst message}
      (hsent : .send dst message ∈ (h.prepare src rnd).2) :
      Built i .promise (.paxosMessage message)
  | accept {h h' : SinglePaxosHandler EndpointId} (hi : h.paxosLogIndex = i) {rnd vrnd vval
      effects endpoints message} (hpromise : h.promise rnd vrnd vval = .ok (h', effects))
      (hsent : .broadcast endpoints message ∈ effects) :
      Built i .accept (.paxosMessage message)
  | learn {h : SinglePaxosHandler EndpointId} (hi : h.paxosLogIndex = i) {vrnd vval endpoints
      message} (hsent : .broadcast endpoints message ∈ (h.accept vrnd vval).2) :
      Built i .learn (.paxosMessage message)
  | syncEntry {κ : Type} {paxosLog : PaxosLog κ} {entryWithIndex}
      (hentry : entryWithIndex ∈ LogSyncer.entriesBetween paxosLog i i) :
      Built i .syncEntry (.syncEntry entryWithIndex)

/-- The instance for index `i` handles the content of a message. -/
def handleAt (m : MultiPaxosHandler EndpointId) (i : ℕ) (src : EndpointId)
    (content : PaxosMessage.Content) :
    Except UniversalException (MultiPaxosHandler EndpointId × List (Effect EndpointId)) := do
  let (h, effects) ← dispatch (m.getInstance i) src content
  return (m.setInstance i h, effects)

/-- A receiver brings the traffic to index `i`: `handle_incoming_message` to the instance,
and `handle_sync_response` to the slot of the log, with whatever else is in the response. -/
def DispatchedTo (i : ℕ) : Traffic → Prop
  | .paxosMessage message => ∀ (m : MultiPaxosHandler EndpointId) (src : EndpointId),
      m.handleIncomingMessage src message = m.handleAt i src message.content
  | .syncEntry entryWithIndex => ∀ {κ : Type} (paxosLog : PaxosLog κ)
      (before after : List PaxosLogEntryWithIndex),
      LogSyncer.handleSyncResponse paxosLog ⟨before ++ entryWithIndex :: after⟩ =
        paxosLog.setEntries (before.map (fun x => (x.index.toNat, x.entry)) ++
          (i, entryWithIndex.entry) :: after.map fun x => (x.index.toNat, x.entry))

/-! ## What is built -/

theorem index_of_handled {h h' : SinglePaxosHandler EndpointId} {src : EndpointId}
    {content : PaxosMessage.Content} {effects : List (Effect EndpointId)}
    (hh : h.Handled src content h' effects) {message : PaxosMessage}
    (hsent : (∃ endpoints, .broadcast endpoints message ∈ effects) ∨
      ∃ dst, .send dst message ∈ effects) :
    message.paxosIndex = UInt32.ofNat h.paxosLogIndex := by
  cases hh <;> simp_all [SinglePaxosHandler.message]

theorem Built.index_eq {i : ℕ} {kind : Kind} {traffic : Traffic} (h : Built i kind traffic) :
    traffic.index = UInt32.ofNat i := by
  cases h with
  | prepare hi hsent =>
      subst hi
      simp only [SinglePaxosHandler.propose, List.mem_singleton, Effect.broadcast.injEq] at hsent
      rw [Traffic.index, hsent.2]
      rfl
  | promise hi hsent =>
      subst hi
      exact index_of_handled (SinglePaxosHandler.handled_prepare _ _ _) (.inr ⟨_, hsent⟩)
  | @accept h h' hi rnd vrnd vval effects endpoints message hpromise hsent =>
      subst hi
      have hhandled : h.Handled ⟨"", 0⟩ (.promise rnd vrnd vval) h' effects :=
        SinglePaxosHandler.handled_promise hpromise
      exact index_of_handled hhandled (.inl ⟨endpoints, hsent⟩)
  | learn hi hsent =>
      subst hi
      exact index_of_handled (SinglePaxosHandler.handled_accept _ ⟨"", 0⟩ _ _) (.inl ⟨_, hsent⟩)
  | syncEntry hentry =>
      obtain ⟨j, hj, entry, -, rfl⟩ := LogSyncer.mem_entriesBetween.mp hentry
      obtain rfl : j = i := by omega
      rfl

/-- The entries of a response are built for the indices that the request asks for. -/
theorem built_of_response {κ : Type} {paxosLog : PaxosLog κ} {n : ℕ}
    (hnext : paxosLog.nextAvailableIndex = .ok n) {request : SyncRequest}
    {response : SyncResponse}
    (h : LogSyncer.buildSyncResponse paxosLog request = .ok response)
    {x : PaxosLogEntryWithIndex} (hx : x ∈ response.missingEntries) :
    ∃ i, LogSyncer.Requested n request i ∧ Built i .syncEntry (.syncEntry x) := by
  have hgap := LogSyncer.unset_of_nextAvailableIndex hnext
  obtain ⟨i, hrequested, entry, hentry, rfl⟩ :=
    (LogSyncer.mem_buildSyncResponse hnext hgap h x).mp hx
  exact ⟨i, hrequested, .syncEntry (LogSyncer.mem_entriesBetween.mpr
    ⟨i, ⟨le_rfl, le_rfl⟩, entry, hentry, rfl⟩)⟩

/-- There is traffic of every kind for every index. -/
theorem exists_built (i : ℕ) (kind : Kind) : ∃ traffic, Built i kind traffic := by
  -- a group of one member, whose instance proposes with number 1
  let h : SinglePaxosHandler EndpointId := .new ⟨1⟩ i []
  cases kind with
  | prepare =>
      have hsent : .broadcast [] (h.message (.prepare 1)) ∈ (h.propose 1 .notSet).2 :=
        List.mem_singleton_self _
      exact ⟨_, .prepare rfl hsent⟩
  | promise =>
      have hsent : .send ⟨"", 0⟩ (h.message (.promise 1 0 .notSet)) ∈ (h.prepare ⟨"", 0⟩ 1).2 :=
        List.mem_singleton_self _
      exact ⟨_, .promise rfl hsent⟩
  | accept =>
      have hpromise : (h.propose 1 .notSet).1.promise 1 0 .notSet =
          .ok ((h.propose 1 .notSet).1.withPromises 1 [(0, .notSet)],
            [.broadcast [] (h.message (.accept 1 .notSet))]) := by
        simp [SinglePaxosHandler.promise, SinglePaxosHandler.propose, h,
          SinglePaxosHandler.new, SinglePaxosHandler.nextProposalNumber,
          SinglePaxosHandler.majorityThreshold, SinglePaxosHandler.withPromises,
          SinglePaxosHandler.proposalValue, SinglePaxosHandler.message]
      exact ⟨_, .accept rfl hpromise (List.mem_singleton_self _)⟩
  | learn =>
      have hsent : .broadcast [] (h.message (.learn 0 .notSet)) ∈ (h.accept 0 .notSet).2 :=
        List.mem_singleton_self _
      exact ⟨_, .learn rfl hsent⟩
  | syncEntry =>
      let paxosLog : PaxosLog Unit := ⟨fun _ => some .notSet, [], fun _ => []⟩
      have hentry : ⟨UInt32.ofNat i, .notSet⟩ ∈ LogSyncer.entriesBetween paxosLog i i :=
        LogSyncer.mem_entriesBetween.mpr ⟨i, ⟨le_rfl, le_rfl⟩, .notSet, rfl, rfl⟩
      exact ⟨_, .syncEntry hentry⟩

/-! ## What is dispatched -/

/-- An instance that counts no more promises handles every message. -/
theorem dispatch_of_full {h : SinglePaxosHandler EndpointId}
    (hfull : ∀ rnd, ∃ promises, h.proposerState.prepareState rnd = some promises ∧
      ¬ promises.length < h.majorityThreshold) (src : EndpointId)
    (content : PaxosMessage.Content) : ∃ result, dispatch h src content = .ok result := by
  cases content with
  | promise rnd vrnd vval =>
      obtain ⟨promises, hstate, hlength⟩ := hfull rnd
      refine ⟨(h, []), ?_⟩
      simp [dispatch, SinglePaxosHandler.promise, hstate, hlength]
  | _ => exact ⟨_, rfl⟩

theorem handleAt_new {h h' : SinglePaxosHandler EndpointId} {src : EndpointId}
    {content : PaxosMessage.Content} {effects : List (Effect EndpointId)}
    (hdispatch : dispatch h src content = .ok (h', effects)) (i : ℕ) :
    (new fun _ => h).handleAt i src content =
      .ok (⟨fun _ => h, KeyMap.empty.assign i h'⟩, effects) := by
  simp only [handleAt, getInstance, new, KeyMap.empty_apply, Option.getD_none, hdispatch, bind,
    Except.bind]
  rfl

/-- A map with one entry says where it is. -/
theorem eq_of_assign_eq {α : Type} {i j : ℕ} {a b : α}
    (h : KeyMap.empty.assign j a = KeyMap.empty.assign i b) : j = i := by
  have hi := congrFun h i
  rw [KeyMap.assign_self, KeyMap.assign_apply] at hi
  split at hi
  · rename_i heq
    exact heq.symm
  · cases hi

/-- The first entry of a log goes where it is set. -/
theorem setEntry_new {κ : Type} (i : ℕ) (entry : PaxosLogEntry) :
    ∃ l' calls, (PaxosLog.new : PaxosLog κ).setEntry i entry = .ok (l', calls) ∧
      l'.log = KeyMap.empty.insert i entry := by
  let l' : PaxosLog κ :=
    { (PaxosLog.new : PaxosLog κ) with
      availableIndices := PaxosLog.takeIndex [0] 0 i
      log := KeyMap.empty.insert i entry }
  have hfree : ¬(i ≤ 0 ∧ i ∉ [0]) := by simp
  have hnext : ∃ next, l'.nextAvailableIndex = .ok next := by
    by_cases hi : i = 0
    · subst hi
      exact ⟨1, rfl⟩
    · refine ⟨0, ?_⟩
      simp [l', PaxosLog.nextAvailableIndex, PaxosLog.takeIndex, hi, universalAssert,
        KeyMap.insert_apply, Ne.symm hi, bind, Except.bind, pure, Except.pure]
  obtain ⟨next, hnext⟩ := hnext
  refine ⟨l', l'.callsBetween 0 next, ?_, rfl⟩
  change (if i ≤ 0 ∧ i ∉ [0] then pure (PaxosLog.new, []) else do
    let next ← l'.nextAvailableIndex
    return (l', l'.callsBetween 0 next)) = _
  rw [if_neg hfree, hnext]
  rfl

theorem dispatchedTo_iff (i : ℕ) (traffic : Traffic) :
    DispatchedTo i traffic ↔ traffic.index.toNat = i := by
  constructor
  · intro h
    cases traffic with
    | paxosMessage message =>
        let full : SinglePaxosHandler EndpointId :=
          { SinglePaxosHandler.new ⟨0⟩ 0 [] with
            proposerState := ⟨0, KeyMap.empty, fun _ => some [(0, .notSet)]⟩ }
        have hfull : ∀ rnd, ∃ promises, full.proposerState.prepareState rnd = some promises ∧
            ¬ promises.length < full.majorityThreshold :=
          fun rnd => ⟨_, rfl, by decide⟩
        obtain ⟨⟨h', effects⟩, hdispatch⟩ := dispatch_of_full hfull ⟨"", 0⟩ message.content
        have heq := h (.new fun _ => full) ⟨"", 0⟩
        change handleAt _ message.paxosIndex.toNat _ _ = _ at heq
        rw [handleAt_new hdispatch, handleAt_new hdispatch, Except.ok.injEq, Prod.mk.injEq,
          MultiPaxosHandler.mk.injEq] at heq
        exact eq_of_assign_eq heq.1.2
    | syncEntry x =>
        obtain ⟨l, calls, hset, hlog⟩ := setEntry_new (κ := Unit) x.index.toNat x.entry
        obtain ⟨l', calls', hset', hlog'⟩ := setEntry_new (κ := Unit) i x.entry
        have heq := h (PaxosLog.new : PaxosLog Unit) [] []
        simp only [LogSyncer.handleSyncResponse, PaxosLog.setEntries, hset, hset', bind,
          Except.bind, List.nil_append, List.map_cons, List.map_nil, pure, Except.pure,
          Except.ok.injEq, Prod.mk.injEq] at heq
        rw [heq.1, hlog'] at hlog
        exact (eq_of_assign_eq hlog).symm
  · rintro rfl
    cases traffic with
    | paxosMessage message =>
        intro m src
        rfl
    | syncEntry x =>
        intro κ paxosLog before after
        simp [LogSyncer.handleSyncResponse, Traffic.index]

/-- Traffic of each kind stays at the index it is built for if and only if the index has 32
bits. -/
theorem isolated_iff (i : UInt64) (kind : Kind) :
    (∀ traffic, Built i.toNat kind traffic → DispatchedTo i.toNat traffic) ↔
      i.toNat < 2 ^ 32 := by
  constructor
  · intro h
    obtain ⟨traffic, hbuilt⟩ := exists_built i.toNat kind
    have hindex := (dispatchedTo_iff _ _).mp (h traffic hbuilt)
    have hlt := traffic.index.toNat_lt
    omega
  · intro hlt traffic hbuilt
    rw [dispatchedTo_iff, hbuilt.index_eq]
    exact Nat.mod_eq_of_lt hlt

/-- A `Prepare` for index `2 ^ 32` reaches the instance for index `0`. -/
theorem not_isolated : ∃ traffic, Built (4294967296 : UInt64).toNat .prepare traffic ∧
    DispatchedTo 0 traffic ∧ ¬ DispatchedTo (4294967296 : UInt64).toNat traffic := by
  let h : SinglePaxosHandler EndpointId := .new ⟨3⟩ (4294967296 : UInt64).toNat []
  have hsent : .broadcast [] ⟨0, .prepare 1⟩ ∈ (h.propose 1 .notSet).2 := by
    decide
  refine ⟨.paxosMessage ⟨0, .prepare 1⟩, .prepare rfl hsent, ?_, ?_⟩
  · rw [dispatchedTo_iff]
    rfl
  · rw [dispatchedTo_iff]
    decide

end UniversalDB.MultiPaxosHandler
