import UniversalDB.Verification.Tablet.Responses

/-! # A key that is written again and again

One participant takes one write of a key after the other, each with an id and a timestamp
of its own. After `2 ^ 31` of them the newest value cannot be read any more. -/

namespace UniversalDB.Tablet

open ClientRequestHandler PaxosLog

/-- An id of length `n`. -/
def nthId (n : ℕ) : String := String.ofList (List.replicate n 'w')

theorem nthId_injective : Function.Injective nthId := by
  intro m n h
  have hlength := congrArg String.length h
  simpa [nthId] using hlength

def nthRequest (n : ℕ) : ClientRequest :=
  ⟨nthId n, .WRITE, "d", "t", "k", some "v", some (n + 1)⟩

def nthWrite (n : ℕ) : Write := ⟨some (nthId n), some "k", some "v", some (n + 1)⟩

/-! ## The participant -/

/-- The store after the first `n` writes. -/
structure Filled (kvstore : KVStore) (n : ℕ) : Prop where
  lat : ∀ lat, kvstore.readLat "k" = some lat → lat ≤ n
  versions : kvstore.versions "k" = (List.range n).map fun m => ⟨m + 1, "v"⟩

theorem Filled.write {kvstore : KVStore} {n : ℕ} (h : Filled kvstore n) :
    ∃ kvstore', kvstore.write "k" "v" (n + 1) = .ok kvstore' ∧ Filled kvstore' (n + 1) := by
  obtain ⟨kvstore', hwrite⟩ := @KVStore.write_ok_of_readLat kvstore "k" "v" (n + 1)
    fun lat hlat => Nat.lt_succ_of_le (h.lat lat hlat)
  refine ⟨kvstore', hwrite, ?_, ?_⟩
  · intro lat hlat
    rcases KVStore.write_cases hwrite with ⟨-, hstore⟩ | ⟨entry, hlt, -, hstore⟩ <;>
      simp only [KVStore.readLat, hstore, KeyMap.assign_apply, if_true, Option.map_some,
        Option.some.injEq, MultiVersionEntry.first, MultiVersionEntry.push_lat] at hlat <;>
      omega
  · rw [KVStore.write_versions hwrite, if_pos rfl, h.versions, List.range_succ, List.map_append]
    rfl

/-- The log after the first `n` writes. -/
structure Learned (l : PaxosLog Callback) (n : ℕ) : Prop where
  wellFormed : l.WellFormed
  callbacks : l.callbacks = (PaxosLog.register registrations).callbacks
  gap : l.log.FirstGap n
  unset : ∀ j, n ≤ j → l.log j = none

theorem Learned.setEntry {l : PaxosLog Callback} {n : ℕ} (h : Learned l n)
    (hn : n < 2 ^ 64 - 1) :
    ∃ l', l.setEntry n (.write (nthWrite n)) =
        .ok (l', [⟨.write, n, .write (nthWrite n)⟩]) ∧ Learned l' (n + 1) := by
  obtain ⟨l', calls, hset, hspec⟩ := h.wellFormed.setEntry hn (.write (nthWrite n))
  have hlog : ∀ j, l'.log j = if j = n then some (.write (nthWrite n)) else l.log j := by
    intro j
    rw [hspec.log, KeyMap.insert_apply, h.unset n le_rfl, Option.getD_none]
  have hgap : l'.log.FirstGap (n + 1) := by
    constructor
    · rw [hlog, if_neg (by omega)]
      exact h.unset _ (by omega)
    · intro i hi
      rw [hlog]
      split
      · rfl
      · exact h.gap.below i (by omega)
  have hcallbacks := hspec.callbacks.trans h.callbacks
  have hcalls : calls = [⟨.write, n, .write (nthWrite n)⟩] := by
    have hbetween := l'.callsBetween_succ n 0
    rw [Nat.add_zero, callsBetween_self, List.append_nil] at hbetween
    rw [hspec.calls n (n + 1) h.gap hgap, hbetween, callsAt, hlog n, if_pos rfl, hcallbacks,
      callbacks_eq]
    rfl
  subst hcalls
  refine ⟨l', hset, hspec.wellFormed, hcallbacks, hgap, ?_⟩
  intro j hj
  rw [hlog, if_neg (by omega)]
  exact h.unset j (by omega)

/-- A participant that has applied the first `n` writes, with tasks to run. -/
structure Written (p : TabletParticipant Unit) (n : ℕ) (asyncQueue : List (Task Unit)) :
    Prop where
  log : Learned p.paxosLog n
  store : Filled p.kvstore n
  ids : ∀ m, p.requestIdMap (nthId m) = if m < n then some m else none
  asyncQueue : p.asyncQueue = asyncQueue
  live : p.exception = none

theorem written_new : Written ClientRequestHandler.new 0 [] where
  log := ⟨PaxosLog.register_wellFormed registrations, rfl, ⟨rfl, by simp⟩, fun _ _ => rfl⟩
  store := ⟨by simp [ClientRequestHandler.new, KVStore.readLat, KVStore.empty], rfl⟩
  ids _ := rfl
  asyncQueue := rfl
  live := rfl

variable {p : TabletParticipant Unit} {n : ℕ} {asyncQueue : List (Task Unit)}

/-- The next write is learned. -/
theorem Written.learn (h : Written p n asyncQueue) (hn : n < 2 ^ 64 - 1) :
    ∃ p', learn () p n (.write (nthWrite n)) = ([.applied () n none], p') ∧
      Written p' (n + 1) asyncQueue := by
  obtain ⟨l', hset, hlog⟩ := h.log.setEntry hn
  obtain ⟨kvstore, hwrite, hstore⟩ := h.store.write
  let p' : TabletParticipant Unit :=
    { p with
      paxosLog := l'
      requestIdMap := p.requestIdMap.insert (nthId n) n
      kvstore := kvstore }
  have hcallback : callback { p with paxosLog := l' } ⟨.write, n, .write (nthWrite n)⟩ = p' := by
    have hcall : p.kvstore.write (StringValue.value (nthWrite n).key)
        (StringValue.value (nthWrite n).value) (UInt64Value.value (nthWrite n).timestamp) =
          .ok kvstore := hwrite
    simp only [callback, PaxosLogEntry.getWrite, hcall]
    rfl
  have hlive : p'.exception = none := h.live
  refine ⟨p', ?_, hlog, hstore, ?_, h.asyncQueue, hlive⟩
  · simp only [Tablet.learn, hset, applyCalls_singleton, hcallback, hlive]
    rfl
  · intro m
    change p.requestIdMap.insert (nthId n) n (nthId m) = _
    rw [KeyMap.insert_apply, h.ids n, if_neg (lt_irrefl n), Option.getD_none]
    split
    · rename_i heq
      rw [if_pos (nthId_injective heq ▸ Nat.lt_succ_self n), nthId_injective heq]
    · rename_i hne
      rw [h.ids m]
      have hlt : m < n ↔ m < n + 1 := by
        have hneq : m ≠ n := fun heq => hne (congrArg nthId heq)
        omega
      simp only [hlt]

/-- The task of the next request proposes its write. -/
theorem Written.runTask_first (h : Written p n asyncQueue) :
    runTask p ⟨(), nthRequest n, 0⟩ =
      .ok ⟨p.kvstore, none, some (.write (nthWrite n)), WAIT_FOR_PAXOS⟩ := by
  have hid : p.requestIdMap (nthRequest n).requestId = none := by
    rw [nthRequest, h.ids n, if_neg (lt_irrefl n)]
  have hlimit : 0 ≠ RETRY_LIMIT := by decide
  have hlegal : illegalWrite p.kvstore (nthRequest n) = false := by
    cases hlat : p.kvstore.readLat "k" with
    | none => simp [illegalWrite, nthRequest, hlat]
    | some lat =>
        have hle := h.store.lat lat hlat
        simp only [illegalWrite, nthRequest, hlat, UInt64Value.value_some]
        exact decide_eq_false (by omega)
  simp only [runTask, hid, if_neg hlimit, hlegal]
  rfl

/-- Once the write is learned the task answers. -/
theorem Written.runTask_last (h : Written p (n + 1) asyncQueue) :
    runTask p ⟨(), nthRequest n, 1⟩ = .ok (.respond p.kvstore ⟨none, .SUCCESS⟩) := by
  have hid : p.requestIdMap (nthRequest n).requestId = some n := by
    rw [nthRequest, h.ids n, if_pos (Nat.lt_succ_self n)]
  simp only [runTask, hid]
  rfl

/-! ## Rounds -/

/-- A state with one participant. -/
def stateOf (p : TabletParticipant Unit) (agreedLog : AgreedLog PaxosLogEntry) :
    State Unit Unit :=
  ⟨fun _ => p, agreedLog⟩

variable {L : AgreedLog PaxosLogEntry}

theorem update_unit {α : Type} (f : Unit → α) (a : α) :
    Function.update f () a = fun _ => a :=
  funext fun _ => Function.update_self _ _ _

theorem Written.isNone (h : Written p n asyncQueue) : p.exception.isNone = true := by
  rw [h.live]
  rfl

theorem Written.next_request (h : Written p n []) (L : AgreedLog PaxosLogEntry) :
    ∃ p', next (stateOf p L) (.request () () (nthRequest n)) =
        some ([.requested () () (nthRequest n)], stateOf p' L) ∧
      Written p' n [⟨(), nthRequest n, 0⟩] := by
  refine ⟨handleRequest p () (nthRequest n), ?_, h.log, h.store, h.ids, ?_, h.live⟩
  · simp only [next, stateOf, h.isNone, if_true, update_unit]
  · rw [handleRequest, h.asyncQueue]
    rfl

theorem Written.next_run_first (h : Written p n [⟨(), nthRequest n, 0⟩])
    (L : AgreedLog PaxosLogEntry) :
    ∃ p', next (stateOf p L) (.run ()) = some ([.proposed () n (.write (nthWrite n))],
        stateOf p' (L.propose n (.write (nthWrite n)))) ∧
      Written p' n [⟨(), nthRequest n, 1⟩] := by
  have hindex := h.log.wellFormed.nextAvailableIndex_eq.mpr h.log.gap
  refine ⟨{ p with asyncQueue := [⟨(), nthRequest n, 1⟩] }, ?_, h.log, h.store, h.ids, rfl,
    h.live⟩
  simp only [next, stateOf, h.asyncQueue, h.isNone, if_true, run, h.runTask_first, hindex]
  rfl

theorem next_choose {k : ℕ} (hk : L.choose k =
    some { L with entries := L.entries ++ [.write (nthWrite n)] })
    (hlength : L.entries.length = n) (hn : n < 2 ^ 64 - 1) :
    next (stateOf p L) (.choose k) =
      some ([], stateOf p { L with entries := L.entries ++ [.write (nthWrite n)] }) := by
  simp only [next, stateOf, hk]
  exact if_pos (hlength ▸ hn)

theorem Written.next_learn (h : Written p n asyncQueue) (hn : n < 2 ^ 64 - 1)
    (hentry : L.entries[n]? = some (.write (nthWrite n))) :
    ∃ p', next (stateOf p L) (.learn () n) = some ([.applied () n none], stateOf p' L) ∧
      Written p' (n + 1) asyncQueue := by
  obtain ⟨p', hlearn, h'⟩ := h.learn hn
  refine ⟨p', ?_, h'⟩
  simp only [next, stateOf, hentry, h.isNone, if_true, hlearn, update_unit]

theorem Written.next_run_last (h : Written p (n + 1) [⟨(), nthRequest n, 1⟩])
    (L : AgreedLog PaxosLogEntry) :
    ∃ p', next (stateOf p L) (.run ()) =
        some ([.responded () () (nthRequest n) (some n) ⟨none, .SUCCESS⟩], stateOf p' L) ∧
      Written p' (n + 1) [] := by
  have hid : p.requestIdMap (nthRequest n).requestId = some n := by
    rw [nthRequest, h.ids n, if_pos (Nat.lt_succ_self n)]
  refine ⟨{ p with asyncQueue := [] }, ?_, h.log, h.store, h.ids, rfl, h.live⟩
  simp only [next, stateOf, h.asyncQueue, h.isNone, if_true, run, h.runTask_last, hid,
    TaskResult.respond]
  rfl

/-- The first `n` writes have been requested, learned and answered. -/
structure Grown (trace : List (Event Unit Unit)) (p : TabletParticipant Unit)
    (L : AgreedLog PaxosLogEntry) (n : ℕ) : Prop where
  run : (machine Unit Unit).system.Run trace (stateOf p L)
  participant : Written p n []
  length : L.entries.length = n
  requests : ∀ message ∈ requests trace, ∃ m, message = nthRequest m
  answers : ∀ m < n, .applied () m none ∈ trace ∧
    .responded () () (nthRequest m) (some m) ⟨none, .SUCCESS⟩ ∈ trace

theorem Grown.distinctIds {trace : List (Event Unit Unit)} (h : Grown trace p L n) :
    DistinctIds trace := by
  intro message hmessage message' hmessage' hid
  obtain ⟨m, rfl⟩ := h.requests message hmessage
  obtain ⟨m', rfl⟩ := h.requests message' hmessage'
  rw [nthId_injective hid]

theorem step_of_next {s s' : State Unit Unit} {a : Action Unit Unit}
    {events : List (Event Unit Unit)} (h : next s a = some (events, s')) :
    (machine Unit Unit).system.step s events s' :=
  ⟨a, trivial, h⟩

/-- A round of the next write: it is requested, proposed, chosen, learned and answered. -/
theorem Grown.round {trace : List (Event Unit Unit)} (h : Grown trace p L n)
    (hn : n < 2 ^ 64 - 1) : ∃ trace' p' L', Grown trace' p' L' (n + 1) := by
  obtain ⟨p₁, hrequest, h₁⟩ := h.participant.next_request L
  obtain ⟨p₂, hpropose, h₂⟩ := h₁.next_run_first L
  let L₂ : AgreedLog PaxosLogEntry := L.propose n (.write (nthWrite n))
  have hlength : L₂.entries.length = n := h.length
  have hmem : (L₂.entries.length, .write (nthWrite n)) ∈ L₂.proposals := by
    rw [hlength]
    exact List.mem_append_right _ List.mem_cons_self
  obtain ⟨k, hk⟩ := AgreedLog.exists_choose hmem
  have hchoose := next_choose (p := p₂) hk hlength hn
  let L₃ : AgreedLog PaxosLogEntry :=
    { L₂ with entries := L₂.entries ++ [.write (nthWrite n)] }
  obtain ⟨p₃, hlearn, h₃⟩ := h₂.next_learn (L := L₃) hn (by simp [L₃, ← hlength])
  obtain ⟨p₄, hanswer, h₄⟩ := h₃.next_run_last L₃
  have hrun := ((((h.run.step (step_of_next hrequest)).step (step_of_next hpropose)).step
    (step_of_next hchoose)).step (step_of_next hlearn)).step (step_of_next hanswer)
  refine ⟨_, p₄, L₃, hrun, h₄, ?_, ?_, ?_⟩
  · change (L₂.entries ++ [PaxosLogEntry.write (nthWrite n)]).length = n + 1
    rw [List.length_append, hlength]
    rfl
  · intro message hmessage
    have hrequests : message ∈ Tablet.requests trace ∨ message = nthRequest n := by
      simpa [Tablet.requests, List.filterMap_append] using hmessage
    rcases hrequests with hold | rfl
    · exact h.requests message hold
    · exact ⟨n, rfl⟩
  · intro m hm
    rcases Nat.lt_succ_iff_lt_or_eq.mp hm with hlt | rfl
    · obtain ⟨happlied, hresponded⟩ := h.answers m hlt
      simp [happlied, hresponded]
    · simp

theorem exists_grown (n : ℕ) (hn : n < 2 ^ 64) : ∃ trace p L, Grown trace p L n := by
  induction n with
  | zero =>
      refine ⟨[], ClientRequestHandler.new, .empty, .start rfl, written_new, rfl, ?_, ?_⟩
      · simp [Tablet.requests]
      · simp
  | succ n ih =>
      obtain ⟨trace, p, L, h⟩ := ih (by omega)
      exact h.round (by omega)

/-- The newest of `2 ^ 31` versions is written, acknowledged and applied, and cannot be read:
the loop never comes to a result, however many turns it is given. -/
theorem written_not_visible :
    ∃ (trace : List (Event Unit Unit)) (s : State Unit Unit) (message : ClientRequest) (j : ℕ),
      (machine Unit Unit).system.Run trace s ∧ DistinctIds trace ∧
        message.requestType = .WRITE ∧
        .responded () () message (some j) ⟨none, .SUCCESS⟩ ∈ trace ∧
        .applied () j none ∈ trace ∧
        (∀ v ∈ (s.participants ()).kvstore.versions message.key,
          v.timestamp ≤ UInt64Value.value message.timestamp) ∧
        ∀ fuel, ∃ fault, (s.participants ()).kvstore.readWithin fuel message.key
          (UInt64Value.value message.timestamp) = .error fault := by
  obtain ⟨trace, p, L, h⟩ := exists_grown (2 ^ 31) (by decide)
  obtain ⟨happlied, hresponded⟩ := h.answers (2 ^ 31 - 1) (by decide)
  have hversions := h.participant.store.versions
  have hle : ∀ v ∈ p.kvstore.versions "k", v.timestamp ≤ 2 ^ 31 := by
    intro v hv
    rw [hversions] at hv
    obtain ⟨m, hm, rfl⟩ := List.mem_map.mp hv
    exact List.mem_range.mp hm
  have hlong : ¬ p.kvstore.Searchable "k" (2 ^ 31) := by
    have hall : KVStore.upTo (p.kvstore.versions "k") (2 ^ 31) = p.kvstore.versions "k" :=
      List.filter_eq_self.mpr fun v hv => decide_eq_true (hle v hv)
    rw [KVStore.Searchable, hall, hversions, List.length_map, List.length_range]
    exact lt_irrefl _
  exact ⟨trace, stateOf p L, nthRequest (2 ^ 31 - 1), 2 ^ 31 - 1, h.run, h.distinctIds, rfl,
    hresponded, happlied, hle, KVStore.readWithin_of_long hlong⟩

end UniversalDB.Tablet
