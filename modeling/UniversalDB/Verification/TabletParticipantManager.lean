import UniversalDB.Model.TabletParticipantManager
import UniversalDB.Verification.KeySpaceRange

/-! # Tablet routing -/

namespace UniversalDB.TabletParticipantManager

variable {m m' : TabletParticipantManager} {trace events : List Event}

/-! ## Ranges between split keys -/

/-- The ranges of a table that an ascending list of split keys induces. -/
def induced (databaseId tableId : String) (cuts : List String) :
    List Server.KeySpaceRange :=
  (HalfOpenInterval.between none cuts).map fun i => ⟨databaseId, tableId, i.lower, i.upper⟩

/-- Every key of a table is in exactly one of its ranges. -/
theorem existsUnique_withinRange {cuts : List String} (hcuts : cuts.Pairwise (· < ·))
    (databaseId tableId key : String) :
    ∃ r ∈ induced databaseId tableId cuts,
      Server.withinRange r databaseId tableId key ∧
      ∀ r' ∈ induced databaseId tableId cuts,
        Server.withinRange r' databaseId tableId key → r' = r := by
  obtain ⟨i, hi, hcontains, hunique⟩ :=
    HalfOpenInterval.existsUnique_between none hcuts (by simp) key (by simp)
  refine ⟨_, List.mem_map_of_mem hi, Server.withinRange_iff.mpr ⟨rfl, rfl, hcontains⟩, ?_⟩
  intro r' hr' hwithin
  obtain ⟨j, hj, rfl⟩ := List.mem_map.mp hr'
  rw [hunique j hj (Server.withinRange_iff.mp hwithin).2.2]

/-! ## Participants -/

/-- The ranges that the calls of `handle_key_space_change` have listed. -/
def seen (trace : List Event) : List Server.KeySpaceRange :=
  trace.flatMap fun
    | .changed ranges => ranges
    | _ => []

def Event.creates (range : Server.KeySpaceRange) : Event → Bool
  | .created _ tabletId => tabletId = range
  | _ => false

/-- What a call of `handle_key_space_change` does: it creates one participant for each
range that is new, and leaves the others as they are. -/
structure Extended (m : TabletParticipantManager) (ranges : List Server.KeySpaceRange)
    (m' : TabletParticipantManager) (events : List Event) : Prop where
  created : ∀ e ∈ events, ∃ serial, ∃ r ∈ ranges, e = .created serial r ∧
    m.tpMap.lookup r = none
  count : ∀ r, events.countP (Event.creates r) =
    if (m.tpMap.lookup r).isSome then 0 else if r ∈ ranges then 1 else 0
  kept : ∀ r tp, m.tpMap.lookup r = some tp → m'.tpMap.lookup r = some tp
  lookup : ∀ r tp, m'.tpMap.lookup r = some tp →
    m.tpMap.lookup r = some tp ∨ .created tp.serial r ∈ events
  isSome : ∀ r, (m'.tpMap.lookup r).isSome ↔ (m.tpMap.lookup r).isSome ∨ r ∈ ranges

theorem handleRange_extended (m : TabletParticipantManager) (range : Server.KeySpaceRange) :
    m.Extended [range] (m.handleRange range).1 (m.handleRange range).2 := by
  cases hlookup : m.tpMap.lookup range with
  | some tp =>
      have hcall : m.handleRange range = (m, []) := by simp [handleRange, hlookup]
      rw [hcall]
      constructor
      · simp
      · intro r
        by_cases hr : r = range
        · subst r
          simp [hlookup]
        · simp [hr]
      · exact fun _ _ h => h
      · exact fun _ _ h => .inl h
      · intro r
        by_cases hr : r = range
        · subst r
          simp [hlookup]
        · simp [hr]
  | none =>
      have hcall : m.handleRange range =
          (⟨AList.insert range ⟨m.created, []⟩ m.tpMap, m.created + 1⟩,
            [.created m.created range]) := by
        simp [handleRange, hlookup]
      rw [hcall]
      constructor
      · intro e he
        exact ⟨m.created, range, List.mem_singleton_self _, List.mem_singleton.mp he, hlookup⟩
      · intro r
        by_cases hr : r = range
        · subst r
          simp [hlookup, Event.creates]
        · have hne : range ≠ r := fun heq => hr heq.symm
          simp [hr, hne, Event.creates]
      · intro r tp htp
        have hr : r ≠ range := by
          rintro rfl
          rw [hlookup] at htp
          cases htp
        simp [hr, htp]
      · intro r tp htp
        simp only [UnorderedMap.lookup_insert] at htp
        split at htp
        · rename_i hr
          subst r
          cases htp
          exact .inr (List.mem_singleton_self _)
        · exact .inl htp
      · intro r
        by_cases hr : r = range <;> simp [UnorderedMap.lookup_insert, hr]

theorem Extended.append {m₁ m₂ : TabletParticipantManager} {range : Server.KeySpaceRange}
    {ranges : List Server.KeySpaceRange} {events₁ events₂ : List Event}
    (h₁ : m.Extended [range] m₁ events₁) (h₂ : m₁.Extended ranges m₂ events₂) :
    m.Extended (range :: ranges) m₂ (events₁ ++ events₂) := by
  have hnone : ∀ r, m₁.tpMap.lookup r = none → m.tpMap.lookup r = none := by
    intro r hr
    cases hm : m.tpMap.lookup r with
    | none => rfl
    | some tp =>
        rw [h₁.kept r tp hm] at hr
        cases hr
  constructor
  · intro e he
    rcases List.mem_append.mp he with he | he
    · obtain ⟨serial, r, hr, heq, hlookup⟩ := h₁.created e he
      exact ⟨serial, r, List.mem_cons.mpr (.inl (List.mem_singleton.mp hr)), heq, hlookup⟩
    · obtain ⟨serial, r, hr, heq, hlookup⟩ := h₂.created e he
      exact ⟨serial, r, List.mem_cons_of_mem _ hr, heq, hnone r hlookup⟩
  · intro r
    rw [List.countP_append, h₁.count r, h₂.count r]
    have hsome := h₁.isSome r
    by_cases hm : (m.tpMap.lookup r).isSome
    · simp [hm, hsome.mpr (.inl hm)]
    · by_cases hr : r = range
      · simp [hm, hr, hsome.mpr (.inr (by simp [hr]))]
      · have hm₁ : ¬ (m₁.tpMap.lookup r).isSome := by
          intro h
          rcases hsome.mp h with h | h
          · exact hm h
          · exact hr (List.mem_singleton.mp h)
        simp [hm, hm₁, hr]
  · intro r tp htp
    exact h₂.kept r tp (h₁.kept r tp htp)
  · intro r tp htp
    rcases h₂.lookup r tp htp with h | h
    · rcases h₁.lookup r tp h with h | h
      · exact .inl h
      · exact .inr (List.mem_append_left _ h)
    · exact .inr (List.mem_append_right _ h)
  · intro r
    rw [h₂.isSome r, h₁.isSome r, List.mem_singleton, List.mem_cons, or_assoc]

theorem handleKeySpaceChange_extended (ranges : List Server.KeySpaceRange) :
    ∀ m : TabletParticipantManager, m.Extended ranges (m.handleKeySpaceChange ranges).1
      (m.handleKeySpaceChange ranges).2 := by
  induction ranges with
  | nil =>
      intro m
      refine ⟨by simp [handleKeySpaceChange], ?_, fun _ _ h => h, fun _ _ h => .inl h, ?_⟩
      · simp [handleKeySpaceChange]
      · simp [handleKeySpaceChange]
  | cons range ranges ih =>
      intro m
      exact (handleRange_extended m range).append (ih _)

/-- A message is queued with one participant and changes nothing else. -/
def QueuedWith (m : TabletParticipantManager) (range : Server.KeySpaceRange)
    (message : IncomingMessage) (result : TabletParticipantManager × List Event) : Prop :=
  ∃ tp, m.tpMap.lookup range = some tp ∧ result.2 = [.queued tp.serial range message] ∧
    ∀ r, result.1.tpMap.lookup r =
      if r = range then some { tp with queue := tp.queue ++ [message] } else m.tpMap.lookup r

theorem queueMessage_queuedWith {range : Server.KeySpaceRange} {tp : ManagedParticipant}
    (h : m.tpMap.lookup range = some tp) (message : IncomingMessage) :
    m.QueuedWith range message (m.queueMessage range tp message) :=
  ⟨tp, h, rfl, fun _ => UnorderedMap.lookup_insert _ _ _ _⟩

/-- The scan for the first entry of the map that passes a test which only one range
passes. -/
theorem find?_traversal {order : List ((_ : TabletId) × ManagedParticipant)}
    (horder : m.tpMap.Traversal order) {p : Server.KeySpaceRange → Bool}
    {range : Server.KeySpaceRange} {tp : ManagedParticipant}
    (hlookup : m.tpMap.lookup range = some tp) (hp : p range)
    (hunique : ∀ r, (m.tpMap.lookup r).isSome → p r → r = range) :
    order.find? (fun e => p e.1) = some ⟨range, tp⟩ := by
  cases hfind : order.find? (fun e => p e.1) with
  | none =>
      rw [List.find?_eq_none] at hfind
      exact absurd hp (hfind ⟨range, tp⟩ (horder.mem_iff.mpr hlookup))
  | some e =>
      obtain ⟨r, tp'⟩ := e
      have hr := horder.mem_iff.mp (List.mem_of_find?_eq_some hfind)
      have hpr := List.find?_some hfind
      obtain rfl := hunique r (by rw [hr]; rfl) hpr
      rw [hlookup] at hr
      cases hr
      rfl

/-- What a message can do. -/
theorem handle_cases {order : List ((_ : TabletId) × ManagedParticipant)}
    (horder : m.tpMap.Traversal order) (message : IncomingMessage) :
    (∃ range, m.QueuedWith range message (m.handle order message)) ∨
      ((m.handle order message).1 = m ∧
        ∀ e ∈ (m.handle order message).2, ∃ endpointId response,
          e = .responded endpointId response) := by
  have hscan : ∀ p : ((_ : TabletId) × ManagedParticipant) → Bool,
      ∀ e, order.find? p = some e →
        m.QueuedWith e.1 message (m.queueMessage e.1 e.2 message) := by
    intro p e hfind
    exact queueMessage_queuedWith (horder.mem_iff.mp (List.mem_of_find?_eq_some hfind)) _
  unfold handle
  cases message.message with
  | clientRequest clientRequest =>
      simp only [handleClientRequest]
      split
      · rename_i r tp hfind
        exact .inl ⟨r, hscan _ _ hfind⟩
      · exact .inr ⟨rfl, fun e he => ⟨_, _, List.mem_singleton.mp he⟩⟩
  | tabletMessage tabletMessage =>
      simp only [handleTabletMessage]
      split
      · rename_i r tp hfind
        exact .inl ⟨r, hscan _ _ hfind⟩
      · exact .inr ⟨rfl, by simp⟩
  | other => exact .inr ⟨rfl, by simp⟩

/-! ## Runs -/

/-- A participant is created by the first call that lists its range. -/
def CreatedFirst (trace : List Event) : Prop :=
  ∀ before serial range after, trace = before ++ .created serial range :: after →
    ∃ past ranges pre, before = past ++ .changed ranges :: pre ∧ range ∈ ranges ∧
      range ∉ seen past ∧ ∀ e ∈ pre, ∃ serial' range', e = .created serial' range'

/-- The map holds one participant for each range that has been listed: the only one that
was ever created for it. -/
structure ManagerInv (trace : List Event) (m : TabletParticipantManager) : Prop where
  isSome : ∀ r, (m.tpMap.lookup r).isSome ↔ r ∈ seen trace
  count : ∀ r, trace.countP (Event.creates r) = if r ∈ seen trace then 1 else 0
  serial : ∀ r tp, m.tpMap.lookup r = some tp → .created tp.serial r ∈ trace
  first : CreatedFirst trace

@[simp] theorem seen_append (trace events : List Event) :
    seen (trace ++ events) = seen trace ++ seen events :=
  List.flatMap_append

theorem seen_eq_nil (h : ∀ e ∈ events, ∀ ranges, e ≠ .changed ranges) : seen events = [] := by
  rw [seen, List.flatMap_eq_nil_iff]
  intro e he
  cases e with
  | changed ranges => exact absurd rfl (h _ he ranges)
  | _ => rfl

theorem CreatedFirst.append (h : CreatedFirst trace)
    (hnew : ∀ pre serial range post, events = pre ++ .created serial range :: post →
      ∃ ranges pre', pre = .changed ranges :: pre' ∧ range ∈ ranges ∧ range ∉ seen trace ∧
        ∀ e ∈ pre', ∃ serial' range', e = .created serial' range') :
    CreatedFirst (trace ++ events) := by
  intro before serial range after heq
  rcases append_eq_append_cons heq with ⟨pre, rfl, hevents⟩ | ⟨tail, htrace, -⟩
  · obtain ⟨ranges, pre', rfl, hmem, hseen, hpre⟩ := hnew pre serial range after hevents
    exact ⟨trace, ranges, pre', rfl, hmem, hseen, hpre⟩
  · exact h before serial range tail htrace

theorem ManagerInv.changed (hinv : ManagerInv trace m) {ranges : List Server.KeySpaceRange}
    (h : m.Extended ranges m' events) :
    ManagerInv (trace ++ .changed ranges :: events) m' := by
  have hnone : seen events = [] := by
    apply seen_eq_nil
    intro e he ranges' heq
    obtain ⟨serial, r, -, rfl, -⟩ := h.created e he
    cases heq
  have hseen : seen (trace ++ .changed ranges :: events) = seen trace ++ ranges := by
    rw [seen_append]
    simp only [seen, List.flatMap_cons] at hnone ⊢
    rw [hnone, List.append_nil]
  constructor
  · intro r
    rw [hseen, List.mem_append, h.isSome r, hinv.isSome r]
  · intro r
    have hmarker : (Event.changed ranges).creates r = false := rfl
    rw [hseen, List.countP_append, List.countP_cons_of_neg (by simp [hmarker]), h.count r,
      hinv.count r]
    simp only [hinv.isSome r, List.mem_append]
    by_cases hold : r ∈ seen trace <;> simp [hold]
  · intro r tp htp
    rcases h.lookup r tp htp with hold | hnew
    · exact List.mem_append_left _ (hinv.serial r tp hold)
    · exact List.mem_append_right _ (List.mem_cons_of_mem _ hnew)
  · apply hinv.first.append
    intro pre serial range post heq
    cases pre with
    | nil => cases heq
    | cons e pre =>
        rw [List.cons_append, List.cons.injEq] at heq
        obtain ⟨rfl, hevents⟩ := heq
        have hcreated : ∀ e ∈ events, ∃ serial, ∃ r ∈ ranges, e = .created serial r ∧
            m.tpMap.lookup r = none := h.created
        refine ⟨ranges, pre, rfl, ?_, ?_, ?_⟩
        · obtain ⟨serial', r, hr, heq, -⟩ := hcreated (.created serial range) (by simp [hevents])
          cases heq
          exact hr
        · obtain ⟨serial', r, -, heq, hlookup⟩ :=
            hcreated (.created serial range) (by simp [hevents])
          cases heq
          rw [← hinv.isSome, hlookup]
          simp
        · intro e he
          obtain ⟨serial', r, -, heq, -⟩ := hcreated e (by simp [hevents, he])
          exact ⟨serial', r, heq⟩

/-- Messages create nothing. -/
theorem ManagerInv.message (hinv : ManagerInv trace m)
    {order : List ((_ : TabletId) × ManagedParticipant)} (horder : m.tpMap.Traversal order)
    (message : IncomingMessage) :
    ManagerInv (trace ++ (m.handle order message).2) (m.handle order message).1 := by
  have hevents : ∀ e ∈ (m.handle order message).2, (∀ ranges, e ≠ .changed ranges) ∧
      ∀ serial range, e ≠ .created serial range := by
    intro e he
    rcases handle_cases horder message with ⟨range, tp, -, hqueued, -⟩ | ⟨-, hresponded⟩
    · rw [hqueued] at he
      cases List.mem_singleton.mp he
      exact ⟨nofun, nofun⟩
    · obtain ⟨endpointId, response, rfl⟩ := hresponded e he
      exact ⟨nofun, nofun⟩
  have hserial : ∀ r tp, (m.handle order message).1.tpMap.lookup r = some tp →
      ∃ tp', m.tpMap.lookup r = some tp' ∧ tp'.serial = tp.serial := by
    intro r tp htp
    rcases handle_cases horder message with ⟨range, tp', hlookup, -, hmap⟩ | ⟨hsame, -⟩
    · rw [hmap r] at htp
      split at htp
      · rename_i hr
        subst r
        cases htp
        exact ⟨tp', hlookup, rfl⟩
      · exact ⟨tp, htp, rfl⟩
    · rw [hsame] at htp
      exact ⟨tp, htp, rfl⟩
  have hsome : ∀ r, ((m.handle order message).1.tpMap.lookup r).isSome ↔
      (m.tpMap.lookup r).isSome := by
    intro r
    rcases handle_cases horder message with ⟨range, tp', hlookup, -, hmap⟩ | ⟨hsame, -⟩
    · rw [hmap r]
      split
      · rename_i hr
        subst r
        exact iff_of_true rfl (Option.isSome_of_eq_some hlookup)
      · rfl
    · rw [hsame]
  have hseen : seen (trace ++ (m.handle order message).2) = seen trace := by
    rw [seen_append, seen_eq_nil fun e he => (hevents e he).1, List.append_nil]
  constructor
  · intro r
    rw [hseen, hsome r, hinv.isSome r]
  · intro r
    have hzero : (m.handle order message).2.countP (Event.creates r) = 0 := by
      rw [List.countP_eq_zero]
      intro e he
      cases e with
      | created serial range => exact absurd rfl ((hevents _ he).2 serial range)
      | _ => simp [Event.creates]
    rw [hseen, List.countP_append, hzero, Nat.add_zero, hinv.count r]
  · intro r tp htp
    obtain ⟨tp', hlookup, hsame⟩ := hserial r tp htp
    rw [← hsame]
    exact List.mem_append_left _ (hinv.serial r tp' hlookup)
  · apply hinv.first.append
    intro pre serial range post heq
    exact absurd rfl ((hevents (.created serial range) (by simp [heq])).2 serial range)

theorem managerInv_of_run (h : machine.system.Run trace m) : ManagerInv trace m := by
  apply h.invariant
  · rintro s rfl
    refine ⟨?_, ?_, ?_, ?_⟩
    · intro r
      simp [machine, new, seen]
    · intro r
      simp [seen]
    · intro r tp htp
      simp [machine, new] at htp
    · intro before serial range after heq
      simp at heq
  · rintro past s events s' - hinv ⟨a, -, hnext⟩
    cases a with
    | keySpaceChange ranges =>
        cases hnext
        exact hinv.changed (handleKeySpaceChange_extended ranges s)
    | message order message =>
        simp only [machine, next] at hnext
        split at hnext
        · rename_i horder
          cases hnext
          exact hinv.message horder message
        · cases hnext

/-! ## Routing -/

variable {databaseId tableId : String} {cuts : List String}
variable {order : List ((_ : TabletId) × ManagedParticipant)}

/-- The ranges of a table that have been listed are those that the split keys induce. -/
def SplitAt (trace : List Event) (databaseId tableId : String) (cuts : List String) : Prop :=
  ∀ r : Server.KeySpaceRange, r.databaseId = databaseId → r.tableId = tableId →
    (r ∈ seen trace ↔ r ∈ induced databaseId tableId cuts)

instance : Decidable (SplitAt trace databaseId tableId cuts) :=
  decidable_of_iff
    ((∀ r ∈ seen trace, r.databaseId = databaseId → r.tableId = tableId →
        r ∈ induced databaseId tableId cuts) ∧
      ∀ r ∈ induced databaseId tableId cuts, r.databaseId = databaseId →
        r.tableId = tableId → r ∈ seen trace)
    ⟨fun h r hdatabase htable =>
        ⟨fun hr => h.1 r hr hdatabase htable, fun hr => h.2 r hr hdatabase htable⟩,
      fun h => ⟨fun r hr hdatabase htable => (h r hdatabase htable).mp hr,
        fun r hr hdatabase htable => (h r hdatabase htable).mpr hr⟩⟩

theorem ManagerInv.handleClientRequest_queued (hinv : ManagerInv trace m)
    (horder : m.tpMap.Traversal order) (hsplit : SplitAt trace databaseId tableId cuts)
    {range : Server.KeySpaceRange} {key : String}
    (hrange : range ∈ induced databaseId tableId cuts)
    (hwithin : Server.withinRange range databaseId tableId key)
    (hunique : ∀ r ∈ induced databaseId tableId cuts,
      Server.withinRange r databaseId tableId key → r = range)
    {request : ClientRequest} (hdatabase : request.databaseId = databaseId)
    (htable : request.tableId = tableId) (hkey : request.key = key) (endpointId : EndpointId) :
    m.QueuedWith range ⟨endpointId, .clientRequest request⟩
      (m.handle order ⟨endpointId, .clientRequest request⟩) := by
  obtain ⟨hdatabase', htable', -⟩ := Server.withinRange_iff.mp hwithin
  have hseen : range ∈ seen trace := (hsplit range hdatabase' htable').mpr hrange
  obtain ⟨tp, htp⟩ := Option.isSome_iff_exists.mp ((hinv.isSome range).mpr hseen)
  have hfind : order.find? (fun e => Server.withinRange e.1 databaseId tableId key) =
      some ⟨range, tp⟩ := by
    apply find?_traversal (p := fun r => Server.withinRange r databaseId tableId key) horder htp
      hwithin
    intro r hr hwithin'
    obtain ⟨hrdatabase, hrtable, -⟩ := Server.withinRange_iff.mp hwithin'
    exact hunique r ((hsplit r hrdatabase hrtable).mp ((hinv.isSome r).mp hr)) hwithin'
  subst hdatabase htable hkey
  simp only [handle, handleClientRequest, hfind]
  exact queueMessage_queuedWith htp _

theorem ManagerInv.handleTabletMessage_queued (hinv : ManagerInv trace m)
    (horder : m.tpMap.Traversal order) (tabletMessage : TabletMessage)
    (endpointId : EndpointId) :
    if Server.convert tabletMessage.range ∈ seen trace then
      m.QueuedWith (Server.convert tabletMessage.range)
        ⟨endpointId, .tabletMessage tabletMessage⟩
        (m.handle order ⟨endpointId, .tabletMessage tabletMessage⟩)
    else m.handle order ⟨endpointId, .tabletMessage tabletMessage⟩ = (m, []) := by
  split
  · rename_i hseen
    obtain ⟨tp, htp⟩ := Option.isSome_iff_exists.mp ((hinv.isSome _).mpr hseen)
    have hfind : order.find? (fun e => e.1 = Server.convert tabletMessage.range) =
        some ⟨Server.convert tabletMessage.range, tp⟩ := by
      apply find?_traversal (p := fun r => r = Server.convert tabletMessage.range) horder htp
        (by simp)
      intro r _ hr
      exact of_decide_eq_true hr
    simp only [handle, handleTabletMessage, hfind]
    exact queueMessage_queuedWith htp _
  · rename_i hseen
    have hfind : order.find? (fun e => e.1 = Server.convert tabletMessage.range) = none := by
      rw [List.find?_eq_none]
      rintro ⟨r, tp⟩ he hr
      obtain rfl : r = _ := of_decide_eq_true hr
      exact hseen ((hinv.isSome _).mp (by rw [horder.mem_iff.mp he]; rfl))
    simp only [handle, handleTabletMessage, hfind]

/-- Every key of a table has one range, and once the ranges of the table have all been
listed every slave queues every request for the key with the participant of that range,
in whatever order it scans its map. The participant of a range is created by the first
call that lists the range, it is the only one ever created for it, and it alone gets the
tablet messages for the range. -/
theorem routed_to_one_participant (hcuts : cuts.Pairwise (· < ·)) :
    (∀ key, ∃ range ∈ induced databaseId tableId cuts,
      ∀ trace m, machine.system.Run trace m → SplitAt trace databaseId tableId cuts →
        ∀ order, m.tpMap.Traversal order → ∀ (endpointId : EndpointId) request,
          request.databaseId = databaseId → request.tableId = tableId → request.key = key →
            m.QueuedWith range ⟨endpointId, .clientRequest request⟩
              (m.handle order ⟨endpointId, .clientRequest request⟩)) ∧
    ∀ trace m, machine.system.Run trace m →
      (∀ range, if range ∈ seen trace then
          trace.countP (Event.creates range) = 1 ∧
            ∃ tp, m.tpMap.lookup range = some tp ∧ .created tp.serial range ∈ trace
        else m.tpMap.lookup range = none) ∧
      CreatedFirst trace ∧
      ∀ order, m.tpMap.Traversal order → ∀ (endpointId : EndpointId) tabletMessage,
        if Server.convert tabletMessage.range ∈ seen trace then
          m.QueuedWith (Server.convert tabletMessage.range)
            ⟨endpointId, .tabletMessage tabletMessage⟩
            (m.handle order ⟨endpointId, .tabletMessage tabletMessage⟩)
        else m.handle order ⟨endpointId, .tabletMessage tabletMessage⟩ = (m, []) := by
  refine ⟨?_, ?_⟩
  · intro key
    obtain ⟨range, hrange, hwithin, hunique⟩ :=
      existsUnique_withinRange hcuts databaseId tableId key
    refine ⟨range, hrange, ?_⟩
    intro trace m hrun hsplit order horder endpointId request hdatabase htable hkey
    exact (managerInv_of_run hrun).handleClientRequest_queued horder hsplit hrange hwithin
      hunique hdatabase htable hkey endpointId
  · intro trace m hrun
    have hinv := managerInv_of_run hrun
    refine ⟨?_, hinv.first, fun order horder endpointId tabletMessage =>
      hinv.handleTabletMessage_queued horder tabletMessage endpointId⟩
    intro range
    split
    · rename_i hseen
      obtain ⟨tp, htp⟩ := Option.isSome_iff_exists.mp ((hinv.isSome range).mpr hseen)
      exact ⟨by rw [hinv.count, if_pos hseen], tp, htp, hinv.serial range tp htp⟩
    · rename_i hseen
      rw [← Option.not_isSome_iff_eq_none, hinv.isSome]
      exact hseen

/-- Two calls split the table at "m"; every slave that has handled them queues a read of
"a" with one and the same participant. -/
theorem routed_to_one_participant_split :
    ∃ range ∈ induced "db" "t" ["m"], ∃ trace m, machine.system.Run trace m ∧
      SplitAt trace "db" "t" ["m"] ∧
      m.QueuedWith range ⟨⟨"client", 0⟩, .clientRequest ⟨"r", .READ, "db", "t", "a", none, none⟩⟩
        (m.handle m.tpMap.entries
          ⟨⟨"client", 0⟩, .clientRequest ⟨"r", .READ, "db", "t", "a", none, none⟩⟩) := by
  obtain ⟨range, hrange, hqueued⟩ := (@routed_to_one_participant "db" "t" ["m"]
    (by decide)).1 "a"
  obtain ⟨trace, m, hrun, hsplit⟩ := machine.exists_run
    [.keySpaceChange [⟨"db", "t", some "m", none⟩],
      .keySpaceChange [⟨"db", "t", none, some "m"⟩, ⟨"db", "t", some "m", none⟩]]
    (p := fun r => SplitAt r.1 "db" "t" ["m"]) (by decide +kernel)
  exact ⟨range, hrange, trace, m, hrun, hsplit, hqueued trace m hrun hsplit _ (.refl _) _ _
    rfl rfl rfl⟩

end UniversalDB.TabletParticipantManager
