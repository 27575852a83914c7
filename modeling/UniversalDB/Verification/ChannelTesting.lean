import UniversalDB.Library.Fifo
import UniversalDB.Model.ChannelTesting

/-! # `ChannelTesting` keeps the vector of the channels that are not empty

A call of `queue_send` from a receive callback finds the message that is being delivered
still in its queue, so the channel of that message is not empty before and stays where it
is in the vector. -/

namespace UniversalDB.ChannelTesting

open List

variable {ι μ : Type} [DecidableEq ι]

/-! ## Traces -/

def role (channel : ι) : Event ι μ → Fifo.Role μ
  | .queued c message => if c = channel then .enter message else .other
  | .handedOver c message => if c = channel then .serve message else .other
  | .popped c message => if c = channel then .leave message else .other
  | .popOfEmpty => .other

/-- The messages that a channel has taken, in this order. -/
def queued (channel : ι) (trace : List (Event ι μ)) : List μ :=
  Fifo.entered (role channel) trace

/-- The messages that have left the queue of a channel, in this order. -/
def popped (channel : ι) (trace : List (Event ι μ)) : List μ :=
  Fifo.left (role channel) trace

/-- The messages that a channel has handed over to its other end, in this order. -/
def handedOver (channel : ι) (trace : List (Event ι μ)) : List μ :=
  trace.filterMap fun
    | .handedOver c message => if c = channel then some message else none
    | _ => none

theorem queued_append (channel : ι) (trace events : List (Event ι μ)) :
    queued channel (trace ++ events) = queued channel trace ++ queued channel events :=
  Fifo.entered_append trace events

theorem popped_append (channel : ι) (trace events : List (Event ι μ)) :
    popped channel (trace ++ events) = popped channel trace ++ popped channel events :=
  Fifo.left_append trace events

theorem handedOver_append (channel : ι) (trace events : List (Event ι μ)) :
    handedOver channel (trace ++ events) =
      handedOver channel trace ++ handedOver channel events :=
  List.filterMap_append

/-- Events by which messages only come in. -/
def Sends (events : List (Event ι μ)) : Prop :=
  ∀ e ∈ events, ∃ channel message, e = .queued channel message

section
omit [DecidableEq ι]

theorem Sends.append {events rest : List (Event ι μ)} (h : Sends events) (h' : Sends rest) :
    Sends (events ++ rest) := by
  intro e he
  rcases List.mem_append.mp he with he | he
  · exact h e he
  · exact h' e he

/-- A message that is handed over is popped before anything happens but sends. -/
def PoppedNext : Event ι μ → List (Event ι μ) → Prop
  | .handedOver channel message, after =>
      ∃ events rest, after = events ++ .popped channel message :: rest ∧ Sends events
  | _, _ => True

theorem PoppedNext.append (e : Event ι μ) (after more : List (Event ι μ))
    (h : PoppedNext e after) : PoppedNext e (after ++ more) := by
  cases e with
  | handedOver channel message =>
      obtain ⟨events, rest, rfl, hsends⟩ := h
      exact ⟨events, rest ++ more, by simp, hsends⟩
  | queued channel message => trivial
  | popped channel message => trivial
  | popOfEmpty => trivial

end

theorem Sends.handedOver {events : List (Event ι μ)} (h : Sends events) (channel : ι) :
    handedOver channel events = [] := by
  rw [ChannelTesting.handedOver, List.filterMap_eq_nil_iff]
  intro e he
  obtain ⟨c, message, rfl⟩ := h e he
  rfl

theorem Sends.popped {events : List (Event ι μ)} (h : Sends events) (channel : ι) :
    popped channel events = [] := by
  rw [ChannelTesting.popped, Fifo.left, List.filterMap_eq_nil_iff]
  intro e he
  obtain ⟨c, message, rfl⟩ := h e he
  simp only [role]
  split <;> rfl

theorem Sends.history {trace events : List (Event ι μ)} {channel : ι} {queue : List μ}
    (h : Sends events) (htrace : Fifo.History (role channel) trace queue) :
    Fifo.History (role channel) (trace ++ events) (queue ++ queued channel events) := by
  refine htrace.arrivals ?_
  intro e he
  obtain ⟨c, message, rfl⟩ := h e he
  by_cases hc : c = channel
  · exact .inr ⟨message, by simp [role, hc]⟩
  · exact .inl (by simp [role, hc])

/-! ## Calls -/

namespace Network

variable {n n' : Network ι μ}

theorem queue_setChannel (n : Network ι μ) (channel c : ι) (value : ChannelTesting ι μ) :
    (n.setChannel channel value).queue c =
      if c = channel then value.messageQueue else n.queue c := by
  by_cases hc : c = channel
  · subst c
    simp [queue, setChannel]
  · simp [queue, setChannel, hc]

@[simp] theorem queue_setQueue (n : Network ι μ) (channel c : ι) (messages : List μ) :
    (n.setQueue channel messages).queue c = if c = channel then messages else n.queue c :=
  queue_setChannel n channel c _

/-- A channel of which something else than the queue is set. -/
theorem queue_setChannel_of_eq {n : Network ι μ} {channel : ι} {value : ChannelTesting ι μ}
    (h : value.messageQueue = n.queue channel) (c : ι) :
    (n.setChannel channel value).queue c = n.queue c := by
  rw [queue_setChannel]
  split
  · rename_i hc
    rw [hc, h]
  · rfl

@[simp] theorem nonemptyChannels_setQueue (n : Network ι μ) (channel : ι) (messages : List μ) :
    (n.setQueue channel messages).nonemptyChannels = n.nonemptyChannels := rfl

/-- The channels that are not empty stand in the vector, each of them once. -/
def Counted (n : Network ι μ) : Prop :=
  ∀ channel, n.nonemptyChannels.count channel = if n.queue channel = [] then 0 else 1

theorem Counted.mem_iff (h : n.Counted) (channel : ι) :
    channel ∈ n.nonemptyChannels ↔ n.queue channel ≠ [] := by
  have hcount := h channel
  rw [← List.count_pos_iff]
  split at hcount <;> simp_all

/-- What calls of `queue_send` leave. -/
structure Sent (n : Network ι μ) (events : List (Event ι μ)) (n' : Network ι μ) : Prop where
  counted : n'.Counted
  exception : n'.exception = n.exception
  sends : Sends events
  queue : ∀ channel, n'.queue channel = n.queue channel ++ queued channel events

theorem Sent.of_queue_eq (h : n.Counted) (hexception : n'.exception = n.exception)
    (hvector : n'.nonemptyChannels = n.nonemptyChannels)
    (hqueue : ∀ channel, n'.queue channel = n.queue channel) : Sent n [] n' := by
  refine ⟨?_, hexception, ?_, ?_⟩
  · intro channel
    rw [hvector, hqueue]
    exact h channel
  · intro e he
    cases he
  · intro channel
    simp [hqueue, queued, Fifo.entered]

theorem Sent.refl (h : n.Counted) : Sent n [] n := .of_queue_eq h rfl rfl fun _ => rfl

theorem Sent.trans {n₁ n₂ : Network ι μ} {events rest : List (Event ι μ)}
    (h : Sent n events n₁) (h' : Sent n₁ rest n₂) : Sent n (events ++ rest) n₂ := by
  refine ⟨h'.counted, h'.exception.trans h.exception, h.sends.append h'.sends, ?_⟩
  intro channel
  rw [h'.queue, h.queue, queued_append, List.append_assoc]

@[simp] theorem queued_queued (channel c : ι) (message : μ) :
    queued channel [Event.queued c message] = if c = channel then [message] else [] := by
  by_cases hc : c = channel <;> simp [queued, Fifo.entered, role, Fifo.entering, hc]

theorem queueSend_of_empty {channel : ι} (hempty : n.queue channel = [])
    (hout : channel ∉ n.nonemptyChannels) (message : μ) :
    n.queueSend channel message = .ok ([.queued channel message],
      { n.setQueue channel [message] with
        nonemptyChannels := n.nonemptyChannels ++ [channel] }) := by
  have hlt : (n.queue channel).length < MAX_MESSAGES_QUEUE_SIZE := by
    simp [hempty, MAX_MESSAGES_QUEUE_SIZE]
  rw [queueSend, if_pos hlt, hempty]
  simp only [universalAssert, queue_setQueue, if_true, List.nil_append, List.length_singleton,
    nonemptyChannels_setQueue, hout, not_false_eq_true, decide_true]
  rfl

theorem queueSend_of_ne_nil {channel : ι} (hne : n.queue channel ≠ [])
    (hlt : (n.queue channel).length < MAX_MESSAGES_QUEUE_SIZE) (message : μ) :
    n.queueSend channel message = .ok ([.queued channel message],
      n.setQueue channel (n.queue channel ++ [message])) := by
  have hlength : (n.queue channel ++ [message]).length ≠ 1 := by simpa using hne
  rw [queueSend, if_pos hlt]
  simp only [queue_setQueue, if_true]
  rw [if_neg hlength]
  rfl

/-- The channel is not in the vector when it takes the first message. -/
theorem queueSend_sent (h : n.Counted) (channel : ι) (message : μ) :
    ∃ events n', n.queueSend channel message = .ok (events, n') ∧ Sent n events n' := by
  have hsends : Sends [Event.queued channel message] := by
    intro e he
    exact ⟨channel, message, List.mem_singleton.mp he⟩
  by_cases hempty : n.queue channel = []
  · have hout : channel ∉ n.nonemptyChannels := by simpa [h.mem_iff] using hempty
    refine ⟨_, _, queueSend_of_empty hempty hout message, ?_, rfl, hsends, ?_⟩
    · intro c
      change (n.nonemptyChannels ++ [channel]).count c =
        if (n.setQueue channel [message]).queue c = [] then 0 else 1
      rw [List.count_append, h c, queue_setQueue]
      by_cases hc : c = channel
      · simp [hc, hempty]
      · simp [hc, Ne.symm hc]
    · intro c
      change (n.setQueue channel [message]).queue c = _
      by_cases hc : c = channel
      · simp [hc, hempty]
      · simp [hc, Ne.symm hc]
  · by_cases hlt : (n.queue channel).length < MAX_MESSAGES_QUEUE_SIZE
    · refine ⟨_, _, queueSend_of_ne_nil hempty hlt message, ?_, rfl, hsends, ?_⟩
      · intro c
        have hcount := h c
        by_cases hc : c = channel
        · subst c
          simp_all
        · simpa [hc] using hcount
      · intro c
        by_cases hc : c = channel
        · simp [hc]
        · simp [hc, Ne.symm hc]
    · refine ⟨[], n, ?_, .refl h⟩
      rw [queueSend, if_neg hlt]
      rfl

theorem queueAll_sent (h : n.Counted) (sends : List (ι × μ)) :
    ∃ events n', n.queueAll sends = .ok (events, n') ∧ Sent n events n' := by
  induction sends generalizing n with
  | nil => exact ⟨[], n, rfl, .refl h⟩
  | cons send sends ih =>
      obtain ⟨channel, message⟩ := send
      obtain ⟨events, n₁, hfirst, hsent⟩ := queueSend_sent h channel message
      obtain ⟨rest, n₂, hrest, hsent'⟩ := ih hsent.counted
      refine ⟨events ++ rest, n₂, ?_, hsent.trans hsent'⟩
      simp only [queueAll, hfirst, bind, Except.bind, hrest]
      rfl

theorem receiveMessage_sent (h : n.Counted) (channel : ι) (sends : List (ι × μ)) :
    ∃ events n', n.receiveMessage channel sends = .ok (events, n') ∧ Sent n events n' := by
  unfold receiveMessage
  split
  · exact queueAll_sent h sends
  · exact ⟨[], n, rfl, .refl h⟩

theorem pop_of_cons {channel : ι} {front : μ} {rest : List μ}
    (hqueue : n.queue channel = front :: rest) :
    n.pop channel = ([.popped channel front], n.setQueue channel rest) := by
  simp only [pop, hqueue]

/-- A channel leaves the vector with its last message. -/
theorem checkEmpty_of_pop (h : n.Counted) {channel : ι} {front : μ} {rest : List μ}
    (hqueue : n.queue channel = front :: rest) :
    ∃ n', (n.setQueue channel rest).checkEmpty channel = .ok n' ∧ n'.Counted ∧
      n'.exception = n.exception ∧
      ∀ c, n'.queue c = if c = channel then rest else n.queue c := by
  have hin : channel ∈ n.nonemptyChannels := by simp [h.mem_iff, hqueue]
  cases rest with
  | nil =>
      refine ⟨{ n.setQueue channel [] with
        nonemptyChannels := n.nonemptyChannels.erase channel }, ?_, ?_, rfl, ?_⟩
      · simp [checkEmpty, universalAssert, hin, pure, Except.pure, bind, Except.bind]
      · intro c
        change (n.nonemptyChannels.erase channel).count c =
          if (n.setQueue channel []).queue c = [] then 0 else 1
        rw [List.count_erase, h c, queue_setQueue]
        by_cases hc : c = channel
        · simp [hc, hqueue]
        · simp [hc, Ne.symm hc]
      · exact fun c => queue_setQueue n channel c []
  | cons second rest =>
      refine ⟨n.setQueue channel (second :: rest), ?_, ?_, rfl, ?_⟩
      · simp [checkEmpty]
        rfl
      · intro c
        rw [nonemptyChannels_setQueue, h c, queue_setQueue]
        by_cases hc : c = channel
        · simp [hc, hqueue]
        · simp [hc]
      · exact fun c => queue_setQueue n channel c (second :: rest)

/-- What a call keeps. -/
structure Kept (n : Network ι μ) (events : List (Event ι μ)) (n' : Network ι μ) : Prop where
  counted : n'.Counted
  exception : n'.exception = n.exception
  history : ∀ channel trace, Fifo.History (role channel) trace (n.queue channel) →
    Fifo.History (role channel) (trace ++ events) (n'.queue channel)
  handedOver : ∀ channel, handedOver channel events <+ popped channel events
  poppedNext : Followed PoppedNext events
  defined : .popOfEmpty ∉ events

theorem Sent.kept {events : List (Event ι μ)} (h : Sent n events n') : Kept n events n' := by
  refine ⟨h.counted, h.exception, ?_, ?_, ?_, ?_⟩
  · intro channel trace htrace
    rw [h.queue]
    exact h.sends.history htrace
  · intro channel
    simp [h.sends.handedOver]
  · refine followed_of_forall ?_
    intro e he after
    obtain ⟨channel, message, rfl⟩ := h.sends e he
    trivial
  · intro hmem
    obtain ⟨channel, message, heq⟩ := h.sends _ hmem
    cases heq

theorem dropMessage_kept (h : n.Counted) {channel : ι} (hne : n.queue channel ≠ []) :
    ∃ events n', n.dropMessage channel = .ok (events, n') ∧ Kept n events n' := by
  obtain ⟨front, rest, hqueue⟩ := List.exists_cons_of_ne_nil hne
  obtain ⟨n', hcheck, hcounted, hexception, hqueue'⟩ := checkEmpty_of_pop h hqueue
  refine ⟨[.popped channel front], n', ?_, hcounted, hexception, ?_, ?_, ?_, by simp⟩
  · simp [dropMessage, pop_of_cons hqueue, hqueue, universalAssert, bind, Except.bind, hcheck]
    rfl
  · intro c trace htrace
    refine htrace.step ?_
    rw [hqueue']
    by_cases hc : c = channel
    · subst c
      simpa [role, hqueue] using Fifo.Turn.leave front rest
    · simpa [role, hc, Ne.symm hc] using Fifo.Turn.other (n.queue c)
  · intro c
    exact List.nil_sublist _
  · exact followed_of_forall (by simp [PoppedNext])

/-- The message that is handed over is in front until the other end has received it, and
is the one that is popped. -/
theorem deliverMessage_kept (h : n.Counted) {channel : ι} (hne : n.queue channel ≠ [])
    (sends : List (ι × μ)) :
    ∃ events n', n.deliverMessage channel sends = .ok (events, n') ∧ Kept n events n' := by
  obtain ⟨front, rest, hqueue⟩ := List.exists_cons_of_ne_nil hne
  by_cases hconnected : (n.channels channel).connectionState = false
  · rw [deliverMessage, hqueue]
    simp only [hconnected, if_true]
    exact dropMessage_kept h hne
  · obtain ⟨received, n₁, hreceive, hsent⟩ :=
      receiveMessage_sent h (n.channels channel).otherChannel sends
    have hqueue₁ : n₁.queue channel = front :: (rest ++ queued channel received) := by
      rw [hsent.queue, hqueue, List.cons_append]
    obtain ⟨n', hcheck, hcounted, hexception, hqueue'⟩ :=
      checkEmpty_of_pop hsent.counted hqueue₁
    refine ⟨.handedOver channel front :: received ++ [.popped channel front], n', ?_, hcounted,
      hexception.trans hsent.exception, ?_, ?_, ?_, ?_⟩
    · simp only [deliverMessage, hqueue, hconnected, hreceive, pop_of_cons hqueue₁,
        bind, Except.bind, hcheck]
      rfl
    · intro c trace htrace
      have hhanded : Fifo.History (role c) (trace ++ [.handedOver channel front]) (n.queue c) := by
        refine htrace.step ?_
        by_cases hc : c = channel
        · subst c
          simpa [role, hqueue] using Fifo.Turn.serve front rest
        · simpa [role, Ne.symm hc] using Fifo.Turn.other (n.queue c)
      have hreceived := hsent.sends.history hhanded
      rw [← hsent.queue] at hreceived
      have hpopped : Fifo.Turn (role c (.popped channel front)) (n₁.queue c) (n'.queue c) := by
        rw [hqueue']
        by_cases hc : c = channel
        · subst c
          simpa [role, hqueue₁] using Fifo.Turn.leave front (rest ++ queued channel received)
        · simpa [role, hc, Ne.symm hc] using Fifo.Turn.other (n₁.queue c)
      simpa using hreceived.step hpopped
    · intro c
      rw [List.cons_append, ← List.singleton_append, handedOver_append, handedOver_append,
        popped_append, popped_append, hsent.sends.handedOver, hsent.sends.popped]
      by_cases hc : channel = c
      · simp [ChannelTesting.handedOver, popped, Fifo.left, Fifo.leaving, role, hc]
      · simp [ChannelTesting.handedOver, hc]
    · rw [List.cons_append, followed_cons]
      refine ⟨⟨received, [], rfl, hsent.sends⟩, ?_⟩
      refine hsent.kept.poppedNext.append PoppedNext.append ?_
      exact followed_of_forall (by simp [PoppedNext])
    · simpa using hsent.kept.defined

theorem call_kept (h : n.Counted) {a : Action ι μ} (ha : n.Allowed a) :
    ∃ events n', n.call a = .ok (events, n') ∧ Kept n events n' := by
  cases a with
  | queueSend channel message =>
      obtain ⟨events, n', hsend, hsent⟩ := queueSend_sent h channel message
      exact ⟨events, n', hsend, hsent.kept⟩
  | deliverMessage channel sends => exact deliverMessage_kept h ha sends
  | dropMessage channel => exact dropMessage_kept h ha
  | startListening channel =>
      refine ⟨[], n.startListening channel, rfl, Sent.kept ?_⟩
      refine .of_queue_eq h rfl rfl ?_
      exact queue_setChannel_of_eq rfl
  | setConnectionState channel connectionState =>
      refine ⟨[], n.setConnectionState channel connectionState, rfl, Sent.kept ?_⟩
      refine .of_queue_eq h rfl rfl ?_
      exact queue_setChannel_of_eq rfl

end Network

/-! ## Runs -/

/-- The simulated network tracks its channels. -/
structure Tracked (trace : List (Event ι μ)) (n : Network ι μ) : Prop where
  /-- A channel stands in the vector once if it has messages, and not otherwise. -/
  nonempty : ∀ channel,
    n.nonemptyChannels.count channel = if n.queue channel = [] then 0 else 1
  /-- No assertion has failed. -/
  exception : n.exception = none
  /-- No message has been popped from an empty queue. -/
  defined : .popOfEmpty ∉ trace
  /-- The messages that have left a channel are the first ones that it has taken, and the
  others are waiting. -/
  waiting : ∀ channel, queued channel trace = popped channel trace ++ n.queue channel
  /-- A message that is handed over is the first one that has not been popped. -/
  turn : ∀ channel before message after,
    trace = before ++ .handedOver channel message :: after →
    ∃ later, queued channel before = popped channel before ++ message :: later
  /-- It is popped before anything happens but sends. -/
  poppedNext : Followed PoppedNext trace
  /-- The messages are handed over in the order in which they were queued, each at most
  once. -/
  inOrder : ∀ channel, handedOver channel trace <+ queued channel trace

/-- What carries `Tracked` over a call. -/
structure Inv (trace : List (Event ι μ)) (n : Network ι μ) : Prop where
  counted : n.Counted
  exception : n.exception = none
  history : ∀ channel, Fifo.History (role channel) trace (n.queue channel)
  handedOver : ∀ channel, handedOver channel trace <+ popped channel trace
  poppedNext : Followed PoppedNext trace
  defined : .popOfEmpty ∉ trace

theorem Inv.step {trace events : List (Event ι μ)} {n n' : Network ι μ} (h : Inv trace n)
    (hkept : n.Kept events n') : Inv (trace ++ events) n' := by
  refine ⟨hkept.counted, hkept.exception.trans h.exception, ?_, ?_, ?_, ?_⟩
  · intro channel
    exact hkept.history channel trace (h.history channel)
  · intro channel
    rw [handedOver_append, popped_append]
    exact (h.handedOver channel).append (hkept.handedOver channel)
  · exact h.poppedNext.append PoppedNext.append hkept.poppedNext
  · simp [h.defined, hkept.defined]

theorem inv_of_run {otherEnd : ι → ι} {trace : List (Event ι μ)} {n : Network ι μ}
    (h : ((machine otherEnd).guarded Network.Allowed).Run trace n) : Inv trace n := by
  refine h.invariant (I := Inv) ?_ ?_
  · intro n hn
    cases hn
    refine ⟨?_, rfl, ?_, ?_, followed_of_forall (by simp), List.not_mem_nil⟩
    · intro channel
      rfl
    · intro channel
      exact .nil
    · intro channel
      exact .refl []
  · intro trace n events n' _ hinv hstep
    obtain ⟨a, ha, hnext⟩ := hstep
    obtain ⟨events', n'', hcall, hkept⟩ := Network.call_kept hinv.counted ha
    change next n a = some (events, n') at hnext
    simp only [next, hinv.exception, Option.isNone_none, if_true, hcall, Option.some.injEq,
      Prod.mk.injEq] at hnext
    obtain ⟨rfl, rfl⟩ := hnext
    exact hinv.step hkept

theorem tracked_of_run {otherEnd : ι → ι} {trace : List (Event ι μ)} {n : Network ι μ}
    (h : ((machine otherEnd).guarded Network.Allowed).Run trace n) : Tracked trace n := by
  have hinv := inv_of_run h
  have hwaiting : ∀ channel, queued channel trace = popped channel trace ++ n.queue channel :=
    fun channel => (hinv.history channel).entered_eq
  refine ⟨hinv.counted, hinv.exception, hinv.defined, hwaiting, ?_, hinv.poppedNext, ?_⟩
  · intro channel before message after heq
    exact (hinv.history channel).served heq (by simp [role])
  · intro channel
    rw [hwaiting]
    exact (hinv.handedOver channel).trans (List.sublist_append_left _ _)

/-- A channel that is its own other end takes a message while it delivers one. -/
theorem tracked_of_run_sample : ∃ (trace : List (Event Bool ℕ)) (n : Network Bool ℕ),
    Tracked trace n ∧ handedOver true trace = [0] ∧ queued true trace = [0, 1] ∧
      n.nonemptyChannels = [false] := by
  obtain ⟨trace, n, hrun, hsample⟩ :=
    ((machine (μ := ℕ) (id : Bool → Bool)).restrict Network.Allowed).exists_run
      (p := fun r => handedOver true r.1 = [0] ∧ queued true r.1 = [0, 1] ∧
        r.2.nonemptyChannels = [false])
      [.startListening true, .queueSend true 0, .deliverMessage true [(true, 1), (false, 2)],
        .dropMessage true] (by decide +kernel)
  exact ⟨trace, n, tracked_of_run (Machine.guarded_of_restrict hrun), hsample⟩

end UniversalDB.ChannelTesting
