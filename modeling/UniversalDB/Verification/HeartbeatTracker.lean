import Mathlib.Data.List.Induction
import Mathlib.Data.List.Sort
import UniversalDB.Model.HeartbeatTracker

/-! # The heartbeats behind the answers of a tracker

A tracker that never erased an endpoint would count, for every endpoint, the periods since
its last heartbeat. The tracker keeps these counts below the failure count, and answers as
if it kept them all. -/

namespace UniversalDB.HeartbeatTracker

/-! ## The counts behind a tracker -/

/-- `n` periods have begun since the last heartbeat of an endpoint. -/
def Since (calls : List Call) (endpointId : EndpointId) (n : ℕ) : Prop :=
  ∃ before after, calls = before ++ .handleHeartbeat endpointId :: after ∧
    .handleHeartbeat endpointId ∉ after ∧ after.count .incrementCounts = n

/-- What a call does to a count that is never given up. -/
def countAfter (endpointId : EndpointId) (count : Option ℕ) : Call → Option ℕ
  | .handleHeartbeat endpointId' => if endpointId' = endpointId then some 0 else count
  | .incrementCounts => count.map (· + 1)
  | .aliveEndpoints => count
  | .leaderEndpointId => count

/-- The number of periods since the last heartbeat of an endpoint, if it had one. -/
def periods (calls : List Call) (endpointId : EndpointId) : Option ℕ :=
  calls.foldl (countAfter endpointId) none

theorem periods_concat (calls : List Call) (c : Call) (endpointId : EndpointId) :
    periods (calls ++ [c]) endpointId = countAfter endpointId (periods calls endpointId) c := by
  simp [periods]

theorem since_heartbeat (calls : List Call) (endpointId : EndpointId) :
    Since (calls ++ [.handleHeartbeat endpointId]) endpointId 0 :=
  ⟨calls, [], rfl, List.not_mem_nil, rfl⟩

theorem Since.concat {calls : List Call} {endpointId : EndpointId} {n : ℕ}
    (h : Since calls endpointId n) {c : Call} (hc : c ≠ .handleHeartbeat endpointId) :
    Since (calls ++ [c]) endpointId (n + [c].count .incrementCounts) := by
  obtain ⟨before, after, rfl, hafter, rfl⟩ := h
  refine ⟨before, after ++ [c], by simp, ?_, by simp⟩
  simpa [hafter] using hc.symm

theorem Since.periods_eq {calls : List Call} {endpointId : EndpointId} {n : ℕ}
    (h : Since calls endpointId n) : periods calls endpointId = some n := by
  obtain ⟨before, after, rfl, hafter, rfl⟩ := h
  induction after using List.reverseRec with
  | nil => simp [periods, countAfter]
  | append_singleton after c ih =>
      simp only [List.mem_append, List.mem_singleton, not_or] at hafter
      rw [← List.cons_append, ← List.append_assoc, periods_concat, ih hafter.1]
      cases c with
      | handleHeartbeat endpointId' =>
          have hne : endpointId' ≠ endpointId := by
            rintro rfl
            exact hafter.2 rfl
          simp [countAfter, hne]
      | incrementCounts => simp [countAfter]
      | aliveEndpoints => simp [countAfter]
      | leaderEndpointId => simp [countAfter]

theorem since_of_periods {calls : List Call} {endpointId : EndpointId} {n : ℕ}
    (h : periods calls endpointId = some n) : Since calls endpointId n := by
  induction calls using List.reverseRec generalizing n with
  | nil => simp [periods] at h
  | append_singleton calls c ih =>
      rw [periods_concat] at h
      cases c with
      | handleHeartbeat endpointId' =>
          simp only [countAfter] at h
          split at h
          · rename_i heq
            cases h
            subst heq
            exact since_heartbeat calls endpointId'
          · rename_i hne
            exact (ih h).concat (by simpa using hne)
      | incrementCounts =>
          simp only [countAfter, Option.map_eq_some_iff] at h
          obtain ⟨m, hm, rfl⟩ := h
          exact (ih hm).concat (by simp)
      | aliveEndpoints => exact (ih h).concat (by simp)
      | leaderEndpointId => exact (ih h).concat (by simp)

theorem since_iff {calls : List Call} {endpointId : EndpointId} {n : ℕ} :
    Since calls endpointId n ↔ periods calls endpointId = some n :=
  ⟨Since.periods_eq, since_of_periods⟩

/-- A count is at most the number of periods in all. -/
theorem periods_le {calls : List Call} {endpointId : EndpointId} {n : ℕ}
    (h : periods calls endpointId = some n) : n ≤ calls.count .incrementCounts := by
  obtain ⟨before, after, rfl, -, rfl⟩ := since_of_periods h
  rw [List.count_append, List.count_cons]
  omega

/-! ## What a tracker keeps of the counts -/

/-- The entries of a tracker are counts, and every count below the failure count has an
entry. -/
structure Tracks (counts : EndpointId → Option ℕ) (t : HeartbeatTracker) : Prop where
  ports : ∀ x ∈ t.heartbeatCount.entries, x.1.port = 0
  count : ∀ x ∈ t.heartbeatCount.entries, counts x.1 = some x.2.toNat
  kept : ∀ endpointId n, counts endpointId = some n → n < HEARTBEAT_FAILURE_COUNT.toNat →
    ∃ count, (endpointId, count) ∈ t.heartbeatCount.entries

/-- The endpoints of a tracker are told apart by their addresses. -/
theorem eq_of_address {e e' : EndpointId} (hport : e.port = 0) (hport' : e'.port = 0)
    (h : e.address = e'.address) : e = e' := by
  obtain ⟨ipString, port⟩ := e
  obtain ⟨ipString', port'⟩ := e'
  simp only [EndpointId.address] at h hport hport'
  rw [h, hport, hport']

theorem mem_handleHeartbeat {t : HeartbeatTracker}
    (hports : ∀ x ∈ t.heartbeatCount.entries, x.1.port = 0) {endpointId : EndpointId}
    (hport : endpointId.port = 0) (x : EndpointId × UInt32) :
    x ∈ (t.handleHeartbeat endpointId).heartbeatCount.entries ↔
      x = (endpointId, 0) ∨ x.1 ≠ endpointId ∧ x ∈ t.heartbeatCount.entries := by
  simp only [handleHeartbeat]
  split
  · rename_i hfind
    rw [OrderedMap.find_eq_none] at hfind
    have hne : x ∈ t.heartbeatCount.entries → x.1 ≠ endpointId := by
      intro hx heq
      exact hfind x hx (congrArg EndpointId.address heq)
    rw [OrderedMap.insert, OrderedMap.mem_insertEntry hfind]
    simp only [and_iff_right_of_imp hne]
  · rename_i found hfind
    have hmem := List.mem_of_find?_eq_some hfind
    have haddress : found.1 = endpointId :=
      eq_of_address (hports found hmem) hport (by simpa using List.find?_some hfind)
    simp only [OrderedMap.assign, OrderedMap.mapValues, List.mem_map]
    constructor
    · rintro ⟨y, hy, rfl⟩
      by_cases heq : y.1.address = endpointId.address
      · left
        rw [if_pos heq, eq_of_address (hports y hy) hport heq]
      · right
        rw [if_neg heq]
        exact ⟨fun h => heq (congrArg EndpointId.address h), hy⟩
    · rintro (rfl | ⟨hne, hx⟩)
      · exact ⟨found, hmem, by rw [haddress, if_pos rfl]⟩
      · refine ⟨x, hx, ?_⟩
        rw [if_neg fun h => hne (eq_of_address (hports x hx) hport h)]

theorem mem_aliveEndpoints {t : HeartbeatTracker} {x : EndpointId × UInt32} :
    x ∈ t.aliveEndpoints.2.heartbeatCount.entries ↔
      x ∈ t.heartbeatCount.entries ∧ x.2 < HEARTBEAT_FAILURE_COUNT := by
  simp [aliveEndpoints, OrderedMap.sublist, collectAlive_eq]

variable {counts : EndpointId → Option ℕ} {t : HeartbeatTracker}

/-- The counts after a call. -/
def countsAfter (counts : EndpointId → Option ℕ) (c : Call) (endpointId : EndpointId) :
    Option ℕ :=
  countAfter endpointId (counts endpointId) c

theorem Tracks.handleHeartbeat (h : Tracks counts t) {endpointId : EndpointId}
    (hport : endpointId.port = 0) :
    Tracks (countsAfter counts (.handleHeartbeat endpointId)) (t.handleHeartbeat endpointId) where
  ports := by
    intro x hx
    rcases (mem_handleHeartbeat h.ports hport x).mp hx with rfl | ⟨-, hmem⟩
    · exact hport
    · exact h.ports x hmem
  count := by
    intro x hx
    rcases (mem_handleHeartbeat h.ports hport x).mp hx with rfl | ⟨hne, hmem⟩
    · simp [countsAfter, countAfter]
    · simpa [countsAfter, countAfter, hne.symm] using h.count x hmem
  kept := by
    intro endpointId' n hn hlt
    by_cases heq : endpointId = endpointId'
    · subst heq
      exact ⟨0, (mem_handleHeartbeat h.ports hport _).mpr (.inl rfl)⟩
    · have hold : counts endpointId' = some n := by
        simpa [countsAfter, countAfter, heq] using hn
      obtain ⟨count, hmem⟩ := h.kept endpointId' n hold hlt
      exact ⟨count, (mem_handleHeartbeat h.ports hport _).mpr (.inr ⟨Ne.symm heq, hmem⟩)⟩

theorem Tracks.incrementCounts (h : Tracks counts t)
    (hbound : ∀ endpointId n, counts endpointId = some n → n + 1 < 2 ^ 32) :
    Tracks (countsAfter counts .incrementCounts) t.incrementCounts where
  ports := by
    simp only [HeartbeatTracker.incrementCounts, OrderedMap.mapValues, List.mem_map]
    rintro x ⟨y, hy, rfl⟩
    exact h.ports y hy
  count := by
    simp only [HeartbeatTracker.incrementCounts, OrderedMap.mapValues, List.mem_map]
    rintro x ⟨y, hy, rfl⟩
    have hcount := h.count y hy
    have hlt := hbound y.1 _ hcount
    have hadd : (y.2 + 1).toNat = y.2.toNat + 1 := by
      rw [UInt32.toNat_add, UInt32.toNat_one]
      exact Nat.mod_eq_of_lt hlt
    simp [countsAfter, countAfter, hcount, hadd]
  kept := by
    intro endpointId n hn hlt
    simp only [countsAfter, countAfter, Option.map_eq_some_iff] at hn
    obtain ⟨m, hm, rfl⟩ := hn
    obtain ⟨count, hmem⟩ := h.kept endpointId m hm (by omega)
    exact ⟨count + 1, List.mem_map.mpr ⟨(endpointId, count), hmem, rfl⟩⟩

/-- What is erased is not needed. -/
theorem Tracks.aliveEndpoints (h : Tracks counts t) : Tracks counts t.aliveEndpoints.2 where
  ports := fun x hx => h.ports x (mem_aliveEndpoints.mp hx).1
  count := fun x hx => h.count x (mem_aliveEndpoints.mp hx).1
  kept := by
    intro endpointId n hn hlt
    obtain ⟨count, hmem⟩ := h.kept endpointId n hn hlt
    have heq := h.count _ hmem
    rw [hn, Option.some.injEq] at heq
    refine ⟨count, mem_aliveEndpoints.mpr ⟨hmem, UInt32.lt_iff_toNat_lt.mpr ?_⟩⟩
    rw [← heq]
    exact hlt

/-! ## Answers -/

theorem aliveEndpoints_ascending (t : HeartbeatTracker) :
    t.aliveEndpoints.1.Pairwise fun e e' => e.ipString < e'.ipString := by
  simp only [HeartbeatTracker.aliveEndpoints, collectAlive_eq]
  rw [List.pairwise_map]
  exact t.heartbeatCount.sorted.sublist List.filter_sublist

theorem Tracks.mem_aliveEndpoints (h : Tracks counts t) {endpointId : EndpointId} :
    endpointId ∈ t.aliveEndpoints.1 ↔
      ∃ n, counts endpointId = some n ∧ n < HEARTBEAT_FAILURE_COUNT.toNat := by
  simp only [HeartbeatTracker.aliveEndpoints, collectAlive_eq, List.mem_map, List.mem_filter,
    decide_eq_true_eq]
  constructor
  · rintro ⟨x, ⟨hmem, hlt⟩, rfl⟩
    exact ⟨_, h.count x hmem, UInt32.lt_iff_toNat_lt.mp hlt⟩
  · rintro ⟨n, hn, hlt⟩
    obtain ⟨count, hmem⟩ := h.kept endpointId n hn hlt
    have heq := h.count _ hmem
    rw [hn, Option.some.injEq] at heq
    refine ⟨(endpointId, count), ⟨hmem, UInt32.lt_iff_toNat_lt.mpr ?_⟩, rfl⟩
    rw [← heq]
    exact hlt

theorem leaderEndpointId_eq (t : HeartbeatTracker) :
    t.leaderEndpointId.1 = t.aliveEndpoints.1.head? := rfl

/-- Trackers with the same counts behind them give the same answers. -/
theorem Tracks.answer_eq {t' : HeartbeatTracker} (h : Tracks counts t) (h' : Tracks counts t')
    (c : Call) : (t.call c).1 = (t'.call c).1 := by
  have hlist : t.aliveEndpoints.1 = t'.aliveEndpoints.1 := by
    have : Std.Irrefl fun e e' : EndpointId => e.ipString < e'.ipString :=
      ⟨fun e => lt_irrefl e.ipString⟩
    have : Std.Antisymm fun e e' : EndpointId => e.ipString < e'.ipString :=
      ⟨fun e e' hlt hgt => absurd hgt hlt.asymm⟩
    apply (aliveEndpoints_ascending t).eq_of_mem_iff (aliveEndpoints_ascending t')
    intro endpointId
    rw [h.mem_aliveEndpoints, h'.mem_aliveEndpoints]
  cases c with
  | handleHeartbeat endpointId => rfl
  | incrementCounts => rfl
  | aliveEndpoints => exact congrArg Answer.aliveEndpoints hlist
  | leaderEndpointId => exact congrArg (fun l => Answer.leaderEndpointId l.head?) hlist

/-! ## Sequences of calls -/

theorem after_concat (t : HeartbeatTracker) (calls : List Call) (c : Call) :
    t.after (calls ++ [c]) = ((t.after calls).call c).2 := by
  simp [after]

theorem answers_concat (t : HeartbeatTracker) (calls : List Call) (c : Call) :
    t.answers (calls ++ [c]) = t.answers calls ++ [((t.after calls).call c).1] := by
  induction calls generalizing t with
  | nil => rfl
  | cons c' calls ih =>
      rw [List.cons_append, answers, ih]
      rfl

/-- Heartbeats come from endpoints as the code builds them, and the counts do not wrap. -/
structure Regular (calls : List Call) : Prop where
  ports : ∀ endpointId, .handleHeartbeat endpointId ∈ calls → endpointId.port = 0
  count : calls.count .incrementCounts < 2 ^ 32

theorem Regular.of_concat {calls : List Call} {c : Call} (h : Regular (calls ++ [c])) :
    Regular calls where
  ports := fun endpointId hmem => h.ports endpointId (List.mem_append_left _ hmem)
  count := by
    have hcount := h.count
    rw [List.count_append] at hcount
    omega

theorem tracks_of_calls {calls : List Call} (h : Regular calls) :
    Tracks (periods calls) (new.after calls) := by
  induction calls using List.reverseRec with
  | nil =>
      refine ⟨?_, ?_, ?_⟩
      · exact fun x hx => absurd hx List.not_mem_nil
      · exact fun x hx => absurd hx List.not_mem_nil
      · intro endpointId n hn
        simp [periods] at hn
  | append_singleton calls c ih =>
      have htracks := ih h.of_concat
      have hcounts : periods (calls ++ [c]) = countsAfter (periods calls) c :=
        funext fun endpointId => periods_concat calls c endpointId
      rw [hcounts, after_concat]
      cases c with
      | handleHeartbeat endpointId =>
          exact htracks.handleHeartbeat (h.ports endpointId (by simp))
      | incrementCounts =>
          refine htracks.incrementCounts ?_
          intro endpointId n hn
          have hle := periods_le hn
          have hcount := h.count
          rw [List.count_append] at hcount
          simp only [List.count_singleton_self] at hcount
          omega
      | aliveEndpoints => exact htracks.aliveEndpoints
      | leaderEndpointId => exact htracks.aliveEndpoints

/-! ## Deleted queries -/

def Call.IsQuery : Call → Prop
  | .aliveEndpoints => True
  | .leaderEndpointId => True
  | _ => False

/-- The items of a sequence that are not marked as deleted. -/
def unmarked {α : Type} (items : List (α × Bool)) : List α :=
  items.filterMap fun x => if x.2 then none else some x.1

theorem unmarked_append {α : Type} (items others : List (α × Bool)) :
    unmarked (items ++ others) = unmarked items ++ unmarked others :=
  List.filterMap_append

theorem unmarked_sublist {α : Type} (items : List (α × Bool)) :
    (unmarked items).Sublist (items.map Prod.fst) := by
  induction items with
  | nil => exact List.Sublist.slnil
  | cons x items ih =>
      obtain ⟨a, deleted⟩ := x
      cases deleted with
      | true => exact ih.cons a
      | false => exact ih.cons_cons a

theorem Regular.of_sublist {calls calls' : List Call} (h : Regular calls)
    (hsub : calls'.Sublist calls) : Regular calls' where
  ports := fun endpointId hmem => h.ports endpointId (hsub.subset hmem)
  count := (hsub.count_le _).trans_lt h.count

/-- A query leaves the counts as they are. -/
theorem periods_query {c : Call} (hc : c.IsQuery) (calls : List Call) :
    periods (calls ++ [c]) = periods calls := by
  funext endpointId
  rw [periods_concat]
  cases c with
  | handleHeartbeat endpointId' => cases hc
  | incrementCounts => cases hc
  | aliveEndpoints => rfl
  | leaderEndpointId => rfl

theorem periods_unmarked {marked : List (Call × Bool)}
    (hquery : ∀ c, (c, true) ∈ marked → c.IsQuery) :
    periods (unmarked marked) = periods (marked.map Prod.fst) := by
  induction marked using List.reverseRec with
  | nil => rfl
  | append_singleton marked x ih =>
      have hold := ih fun c hmem => hquery c (List.mem_append_left _ hmem)
      obtain ⟨c, deleted⟩ := x
      rw [unmarked_append, List.map_append, List.map_singleton]
      cases deleted with
      | true =>
          rw [periods_query (hquery c (by simp)), ← hold]
          exact congrArg periods (List.append_nil _)
      | false =>
          funext endpointId
          change periods (unmarked marked ++ [c]) endpointId = _
          rw [periods_concat, periods_concat, hold]

theorem answers_length (t : HeartbeatTracker) (calls : List Call) :
    (t.answers calls).length = calls.length := by
  induction calls generalizing t with
  | nil => rfl
  | cons c calls ih => simp [answers, ih]

theorem answers_unmarked {marked : List (Call × Bool)} (h : Regular (marked.map Prod.fst))
    (hquery : ∀ c, (c, true) ∈ marked → c.IsQuery) :
    unmarked ((new.answers (marked.map Prod.fst)).zip (marked.map Prod.snd)) =
      new.answers (unmarked marked) := by
  induction marked using List.reverseRec with
  | nil => rfl
  | append_singleton marked x ih =>
      obtain ⟨c, deleted⟩ := x
      rw [List.map_append, List.map_singleton] at h
      have hquery' : ∀ c, (c, true) ∈ marked → c.IsQuery :=
        fun c hmem => hquery c (List.mem_append_left _ hmem)
      have hold := ih h.of_concat hquery'
      rw [List.map_append, List.map_append, List.map_singleton, List.map_singleton,
        answers_concat, List.zip_append (by simp [answers_length]), unmarked_append,
        unmarked_append, hold]
      cases deleted with
      | true => simp [unmarked]
      | false =>
          have htracks := tracks_of_calls h.of_concat
          have htracks' := tracks_of_calls (h.of_concat.of_sublist (unmarked_sublist marked))
          rw [periods_unmarked hquery'] at htracks'
          have hanswer := htracks.answer_eq htracks' c
          change _ ++ [((new.after (marked.map Prod.fst)).call c).1] =
            new.answers (unmarked marked ++ [c])
          rw [hanswer, answers_concat]

/-- What a tracker answers after a sequence of calls. -/
structure AnswersFor (calls : List Call) : Prop where
  ascending : (new.after calls).aliveEndpoints.1.Pairwise fun e e' => e.ipString < e'.ipString
  alive : ∀ endpointId, endpointId ∈ (new.after calls).aliveEndpoints.1 ↔
    ∃ n, Since calls endpointId n ∧ n < HEARTBEAT_FAILURE_COUNT.toNat
  leader : (new.after calls).leaderEndpointId.1 = (new.after calls).aliveEndpoints.1.head?
  /-- The answers to the calls that stay are the same when queries are deleted. -/
  deletion : ∀ marked : List (Call × Bool), marked.map Prod.fst = calls →
    (∀ c, (c, true) ∈ marked → c.IsQuery) →
      unmarked ((new.answers calls).zip (marked.map Prod.snd)) = new.answers (unmarked marked)

theorem answersFor_of_regular {calls : List Call} (h : Regular calls) : AnswersFor calls where
  ascending := aliveEndpoints_ascending _
  alive := by
    intro endpointId
    rw [(tracks_of_calls h).mem_aliveEndpoints]
    simp only [since_iff]
  leader := leaderEndpointId_eq _
  deletion := by
    rintro marked rfl hquery
    exact answers_unmarked h hquery

/-- A node that is erased and comes back. -/
theorem answersFor_of_regular_sample :
    let e : EndpointId := ⟨"ip1", 0⟩
    AnswersFor [.handleHeartbeat e, .incrementCounts, .incrementCounts, .incrementCounts,
      .incrementCounts, .aliveEndpoints, .handleHeartbeat e] :=
  answersFor_of_regular ⟨by simp, by decide⟩

end UniversalDB.HeartbeatTracker
