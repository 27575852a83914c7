import UniversalDB.Verification.ChannelImpl.Ends

/-! # `ChannelImpl` carries messages over a stream of bytes

What is in the stream, between what has been read and what is still to be written, are the
frames of the messages in order. So the messages that come out are the first ones that have
gone in, and the end of the connection damages at most one. -/

namespace UniversalDB.ChannelImpl

/-- The messages are short, and a write that goes on after its buffer has been destroyed
finds there what has been in it. -/
def Undisturbed (n : Network) : Action → Prop
  | .queueSend message _ => Short message
  | .writeMore bytes => bytes <+: n.pending
  | _ => True

instance (n : Network) (a : Action) : Decidable (Undisturbed n a) :=
  match a with
  | .queueSend message _ => inferInstanceAs (Decidable (message.length < 2 ^ 31))
  | .writeMore bytes => inferInstanceAs (Decidable (bytes <+: n.pending))
  | .writeDone _ | .startListening | .readSome _ | .readDone _ _ | .disconnect _ =>
      .isTrue trivial

/-- Events after which the channel does not listen any more. -/
def Stops : Event → Prop
  | .received _ answers => false ∈ answers
  | .closed => True
  | .badLength => True
  | _ => False

/-- What is asked of a trace of a connection. -/
structure Carried (trace : List Event) (n : Network) : Prop where
  received : ∃ whole damaged, received trace = whole ++ damaged ∧ whole <+: accepted trace ∧
    damaged.length ≤ 1 ∧ (n.connected = true → damaged = [])
  /-- Nothing is on its way, and all has come. -/
  complete : n.connected = true → n.messageQueue = [] → n.stream = [] →
    n.read = some (.header, []) → ChannelImpl.received trace = accepted trace
  stopped : Followed (fun e after => Stops e → ChannelImpl.received after = []) trace
  cut : .closed ∈ trace ∨ .badLength ∈ trace → n.connected = false
  popOfEmpty : .popOfEmpty ∉ trace
  bounded : n.messageQueue.length ≤ ChannelTesting.MAX_MESSAGES_QUEUE_SIZE

/-- The invariant. While the connection is there, the frames of the messages that have come
or have begun to be sent are what has arrived and what is being written. -/
structure Flowing (trace : List Event) (n : Network) : Prop where
  short : ∀ message ∈ accepted trace, Short message
  sender : ∃ gone unsent, accepted trace = gone ++ n.messageQueue ∧
    Sending n.write n.messageQueue unsent ∧
    (n.connected = true → n.arrived (ChannelImpl.received trace) ++ unsent =
      (gone ++ n.messageQueue.take 1).flatMap frame)
  receiver : Whole (accepted trace) (ChannelImpl.received trace) n ∨
    Damaged (accepted trace) (ChannelImpl.received trace) n
  listening : n.listening = false → n.read = none
  last : (∃ e ∈ trace, Stops e) → n.read = none ∧ n.listening = true
  stopped : Followed (fun e after => Stops e → ChannelImpl.received after = []) trace
  cut : .closed ∈ trace ∨ .badLength ∈ trace → n.connected = false
  popOfEmpty : .popOfEmpty ∉ trace
  bounded : n.messageQueue.length ≤ ChannelTesting.MAX_MESSAGES_QUEUE_SIZE

section
variable {trace events : List Event} {n n' : Network}

theorem Flowing.sends (h : Flowing trace n)
    (hsends : ∀ unsent, Sending n.write n.messageQueue unsent →
      ∃ unsent' gone sent, Sends n unsent events n' unsent' gone sent)
    (hshort : ∀ message ∈ accepted events, Short message) : Flowing (trace ++ events) n' := by
  obtain ⟨before, unsent, haccepted, hsending, hframes⟩ := h.sender
  obtain ⟨unsent', gone, sent, hstep⟩ := hsends unsent hsending
  have hreceived : received events = [] := by
    rw [received, List.filterMap_eq_nil_iff]
    intro e he
    obtain ⟨message, rfl | rfl⟩ := hstep.events e he <;> rfl
  have hquiet : ∀ e ∈ events, ¬Stops e ∧ e ≠ .closed ∧ e ≠ .badLength ∧ e ≠ .popOfEmpty := by
    intro e he
    obtain ⟨message, rfl | rfl⟩ := hstep.events e he <;> simp [Stops]
  have hshort' : ∀ message ∈ accepted (trace ++ events), Short message := by
    intro message hmem
    rw [accepted_append] at hmem
    rcases List.mem_append.mp hmem with hmem | hmem
    · exact h.short message hmem
    · exact hshort message hmem
  have haccepted' : accepted (trace ++ events) = before ++ gone ++ n'.messageQueue := by
    rw [accepted_append, haccepted, List.append_assoc, hstep.queue, List.append_assoc]
  have harrived : n'.arrived (received (trace ++ events)) = n.arrived (received trace) ++ sent := by
    rw [received_append, hreceived, List.append_nil, Network.arrived, Network.arrived, hstep.read,
      hstep.stream, List.append_assoc _ n.stream]
  have hframes' : n.connected = true → n'.arrived (received (trace ++ events)) ++ unsent' =
      (before ++ gone ++ n'.messageQueue.take 1).flatMap frame := by
    intro hconnected
    obtain ⟨begun, hgone, hsent⟩ := hstep.frames hconnected
    rw [harrived, List.append_assoc, ← hsent, ← List.append_assoc, hframes hconnected,
      List.append_assoc before, List.flatMap_append, List.flatMap_append, hgone,
      List.append_assoc]
  refine ⟨hshort', ⟨before ++ gone, unsent', haccepted', hstep.sending, ?_⟩, ?_, ?_, ?_, ?_, ?_,
    ?_, hstep.bounded h.bounded⟩
  · rw [hstep.connected]
    exact hframes'
  · rw [received_append, hreceived, List.append_nil] at harrived hframes' ⊢
    rcases h.receiver with hwhole | hdamaged
    · refine .inl ⟨hwhole.short, fun length bytes heq =>
        hwhole.length length bytes (hstep.read ▸ heq), ?_⟩
      by_cases hconnected : n.connected = true
      · have hprefix : before ++ gone ++ n'.messageQueue.take 1 <+: accepted (trace ++ events) := by
          rw [haccepted', List.prefix_append_right_inj]
          exact List.take_prefix _ _
        obtain ⟨rest, hrest⟩ := hprefix
        refine ⟨unsent' ++ rest.flatMap frame, ?_⟩
        rw [← List.append_assoc, hframes' hconnected, ← List.flatMap_append, hrest]
      · rw [harrived, hstep.lost (by simpa using hconnected), List.append_nil, accepted_append,
          List.flatMap_append]
        exact hwhole.arrived.trans (List.prefix_append _ _)
    · obtain ⟨whole, damaged, heq, hprefix, hphase⟩ := hdamaged.messages
      refine .inr ⟨hstep.connected.trans hdamaged.connected, ?_, whole, damaged, heq, ?_, ?_⟩
      · rw [hstep.stream, hdamaged.stream, hstep.lost hdamaged.connected]
        rfl
      · rw [accepted_append]
        exact hprefix.trans (List.prefix_append _ _)
      · rw [hstep.read]
        exact hphase
  · rw [hstep.listening, hstep.read]
    exact h.listening
  · rw [hstep.listening, hstep.read]
    rintro ⟨e, hmem, hstops⟩
    rcases List.mem_append.mp hmem with hmem | hmem
    · exact h.last ⟨e, hmem, hstops⟩
    · exact absurd hstops (hquiet e hmem).1
  · intro past e after heq hstops
    rcases append_eq_append_cons heq with ⟨pre, -, hevents⟩ | ⟨tail, hpast, rfl⟩
    · exact absurd hstops (hquiet e (by simp [hevents])).1
    · rw [received_append, h.stopped past e tail hpast hstops, hreceived]
      rfl
  · rw [hstep.connected]
    intro hcut
    refine h.cut ?_
    simp only [List.mem_append] at hcut
    rcases hcut with (hmem | hmem) | hmem | hmem
    · exact .inl hmem
    · exact absurd rfl (hquiet _ hmem).2.1
    · exact .inr hmem
    · exact absurd rfl (hquiet _ hmem).2.2.1
  · intro hmem
    rcases List.mem_append.mp hmem with hmem | hmem
    · exact h.popOfEmpty hmem
    · exact (hquiet _ hmem).2.2.2 rfl

/-- A step of the receiver that shows one event at most. -/
theorem Flowing.reads (h : Flowing trace n) {read : Option (Read × List UInt8)}
    {stream : List UInt8} (hevents : events.length ≤ 1) (haccepted : accepted events = [])
    (hlast : ∀ e ∈ events, Stops e → read = none) (hlistening : n.listening = true)
    (hnone : n.read = none → events = [] ∧ read = none)
    (hcut : .closed ∈ events ∨ .badLength ∈ events → n.connected = false)
    (hpop : .popOfEmpty ∉ events)
    (hframes : n.connected = true →
      Network.arrived { n with read := read, stream := stream }
        (received (trace ++ events)) = n.arrived (received trace))
    (hreceiver : Whole (accepted trace) (received (trace ++ events))
        { n with read := read, stream := stream } ∨
      Damaged (accepted trace) (received (trace ++ events))
        { n with read := read, stream := stream }) :
    Flowing (trace ++ events) { n with read := read, stream := stream } := by
  have hsame : accepted (trace ++ events) = accepted trace := by
    rw [accepted_append, haccepted, List.append_nil]
  obtain ⟨gone, unsent, hqueue, hsending, heq⟩ := h.sender
  refine ⟨?_, ⟨gone, unsent, ?_, hsending, ?_⟩, ?_, ?_, ?_, ?_, ?_, ?_, h.bounded⟩
  · rw [hsame]
    exact h.short
  · rw [hsame]
    exact hqueue
  · intro hconnected
    rw [hframes hconnected]
    exact heq hconnected
  · rw [hsame]
    exact hreceiver
  · intro hfalse
    exact absurd (hlistening.symm.trans hfalse) (by simp)
  · rintro ⟨e, hmem, hstops⟩
    refine ⟨?_, hlistening⟩
    rcases List.mem_append.mp hmem with hmem | hmem
    · exact (hnone (h.last ⟨e, hmem, hstops⟩).1).2
    · exact hlast e hmem hstops
  · intro past e after hsplit hstops
    rcases append_eq_append_cons hsplit with ⟨pre, -, hlist⟩ | ⟨tail, hpast, rfl⟩
    · have hnil : after = [] := by
        rw [hlist, List.length_append, List.length_cons] at hevents
        exact List.length_eq_zero_iff.mp (by omega)
      rw [hnil]
      rfl
    · have hread := (h.last ⟨e, by simp [hpast], hstops⟩).1
      rw [(hnone hread).1, List.append_nil]
      exact h.stopped past e tail hpast hstops
  · intro hmem
    simp only [List.mem_append] at hmem
    rcases hmem with (hmem | hmem) | hmem | hmem
    · exact h.cut (.inl hmem)
    · exact hcut (.inl hmem)
    · exact h.cut (.inr hmem)
    · exact hcut (.inr hmem)
  · intro hmem
    rcases List.mem_append.mp hmem with hmem | hmem
    · exact h.popOfEmpty hmem
    · exact hpop hmem

theorem Flowing.listening_of_read (h : Flowing trace n) {read : Read × List UInt8}
    (hread : n.read = some read) : n.listening = true := by
  by_contra hfalse
  rw [h.listening (by simpa using hfalse)] at hread
  cases hread

theorem Flowing.startListening (h : Flowing trace n) (hfirst : n.listening = false) :
    Flowing (trace ++ []) { n.recv with listening := true } := by
  have hnone := h.listening hfirst
  have harrived : Network.arrived { n.recv with listening := true } (ChannelImpl.received trace) =
      n.arrived (ChannelImpl.received trace) := by
    rw [Network.arrived, Network.arrived, hnone]
    rfl
  rw [List.append_nil]
  obtain ⟨gone, unsent, hqueue, hsending, hframes⟩ := h.sender
  refine ⟨h.short, ⟨gone, unsent, hqueue, hsending, ?_⟩, ?_, by simp, ?_, h.stopped, h.cut,
    h.popOfEmpty, h.bounded⟩
  · rw [harrived]
    exact hframes
  · rcases h.receiver with hwhole | hdamaged
    · exact .inl ⟨hwhole.short, by simp [Network.recv], harrived ▸ hwhole.arrived⟩
    · obtain ⟨whole, damaged, heq, hprefix, hphase⟩ := hdamaged.messages
      refine .inr ⟨hdamaged.connected, hdamaged.stream, whole, damaged, heq, hprefix,
        .inr ⟨?_, .inr rfl⟩⟩
      rcases hphase with ⟨rfl, -⟩ | ⟨hlength, -⟩
      · simp
      · exact hlength
  · intro hstops
    exact absurd ((h.last hstops).2.symm.trans hfirst) (by simp)

theorem Flowing.disconnect (h : Flowing trace n) (hconnected : n.connected = true) (kept : ℕ) :
    Flowing (trace ++ []) { n with connected := false, stream := n.stream.take kept } := by
  rw [List.append_nil]
  obtain ⟨gone, unsent, hqueue, hsending, -⟩ := h.sender
  refine ⟨h.short, ⟨gone, unsent, hqueue, hsending, by simp⟩, ?_, h.listening, h.last, h.stopped,
    fun _ => rfl, h.popOfEmpty, h.bounded⟩
  rcases h.receiver with hwhole | hdamaged
  · exact .inl (hwhole.of_eq rfl (List.take_prefix _ _) List.prefix_rfl)
  · rw [hdamaged.connected] at hconnected
    cases hconnected

theorem Flowing.readSome (h : Flowing trace n) {read : Read} {bytes : List UInt8}
    (hread : n.read = some (read, bytes)) (count : ℕ) :
    Flowing (trace ++ []) { n with
      read := some (read, bytes ++ n.stream.take count)
      stream := n.stream.drop count } := by
  have hbegun : begun (some (read, bytes ++ n.stream.take count)) ++ n.stream.drop count =
      begun n.read ++ n.stream := by
    rw [hread]
    cases read <;> simp [begun]
  have harrived : Network.arrived { n with
      read := some (read, bytes ++ n.stream.take count)
      stream := n.stream.drop count } (ChannelImpl.received (trace ++ [])) =
      n.arrived (ChannelImpl.received trace) := by
    rw [Network.arrived, Network.arrived, List.append_nil, List.append_assoc, hbegun,
      List.append_assoc]
  refine h.reads (by simp) rfl (by simp) (h.listening_of_read hread) ?_ (by simp) (by simp)
    (fun _ => harrived) ?_
  · intro hnone
    rw [hread] at hnone
    cases hnone
  · rcases h.receiver with hwhole | hdamaged
    · refine .inl ⟨by simpa using hwhole.short, ?_, harrived ▸ hwhole.arrived⟩
      intro length rest heq
      cases heq
      exact hwhole.length length bytes hread
    · refine .inr ⟨hdamaged.connected, by simp [hdamaged.stream], ?_⟩
      obtain ⟨whole, damaged, heq, hprefix, hphase⟩ := hdamaged.messages
      refine ⟨whole, damaged, by simpa using heq, hprefix, ?_⟩
      simpa [hread, hdamaged.stream] using hphase

theorem Flowing.readDone (h : Flowing trace n) {read : Read} {bytes memory : List UInt8}
    (hread : n.read = some (read, bytes)) (hsize : bytes.length + memory.length = read.size)
    (hdone : memory = [] ∨ n.connected = false ∧ n.stream = []) (answers : List Bool) :
    Flowing (trace ++ (n.readHandler (bytes ++ memory) bytes.length answers read).1)
      (n.readHandler (bytes ++ memory) bytes.length answers read).2 := by
  have hlistening := h.listening_of_read hread
  have hsome : n.read ≠ none := by simp [hread]
  have hnil : received (trace ++ []) = received trace := by rw [List.append_nil]
  have hclosed : received (trace ++ [.closed]) = received trace := by simp [received]
  have hbad : received (trace ++ [.badLength]) = received trace := by simp [received]
  have hmore : ∀ buffer run, received (trace ++ [.received buffer run]) =
      received trace ++ [buffer] := by simp [received]
  rcases h.receiver with hwhole | hdamaged
  · by_cases hfull : memory = []
    · subst memory
      rw [List.append_nil]
      obtain ⟨events, after, hresult, hevents, hshort, hlength, harrived⟩ :=
        readHandler_whole hwhole h.short hread (by simpa using hsize) answers
      rw [hresult]
      have hwhole' : Whole (accepted trace) (received (trace ++ events))
          { n with read := after } := by
        rw [received_append]
        refine ⟨?_, hlength, harrived ▸ hwhole.arrived⟩
        intro message hmem
        rcases List.mem_append.mp hmem with hmem | hmem
        · exact hwhole.short message hmem
        · exact hshort message hmem
      have hframes : Network.arrived { n with read := after } (received (trace ++ events)) =
          n.arrived (received trace) := by
        rw [received_append]
        exact harrived
      rcases hevents with rfl | ⟨rfl, hstop⟩
      · exact h.reads (by simp) rfl (by simp) hlistening (fun hnone => absurd hnone hsome)
          (by simp) (by simp) (fun _ => hframes) (.inl hwhole')
      · refine h.reads (by simp) rfl ?_ hlistening (fun hnone => absurd hnone hsome)
          (by simp) (by simp) (fun _ => hframes) (.inl hwhole')
        intro e he hstops
        rw [List.mem_singleton.mp he] at hstops
        exact hstop hstops
    · obtain ⟨hconnected, hstream⟩ := hdone.resolve_left hfull
      have hgone : ¬n.connected = true := by simp [hconnected]
      rcases readHandler_whole_of_cut hwhole h.short hconnected hstream hread (bytes ++ memory)
        answers with ⟨-, hresult, hafter⟩ | ⟨events, after, hresult, hevents, hafter⟩ |
          ⟨after, hresult, hstop, hafter⟩
      · rw [hresult]
        refine h.reads (by simp) rfl (fun _ _ _ => rfl) hlistening
          (fun hnone => absurd hnone hsome) (fun _ => hconnected) (by simp)
          (fun hc => absurd hc hgone) (.inl ?_)
        rw [hclosed]
        exact hafter
      · rw [hresult]
        rcases hevents with rfl | ⟨rfl, rfl⟩
        · refine h.reads (by simp) rfl (by simp) hlistening (fun hnone => absurd hnone hsome)
            (by simp) (by simp) (fun hc => absurd hc hgone) (.inr ?_)
          rw [hnil]
          exact hafter
        · refine h.reads (by simp) rfl (fun _ _ _ => rfl) hlistening
            (fun hnone => absurd hnone hsome) (fun _ => hconnected) (by simp)
            (fun hc => absurd hc hgone) (.inr ?_)
          rw [hbad]
          exact hafter
      · rw [hresult]
        refine h.reads (by simp) rfl ?_ hlistening (fun hnone => absurd hnone hsome)
          (by simp) (by simp) (fun hc => absurd hc hgone) (.inr ?_)
        · intro e he hstops
          rw [List.mem_singleton.mp he] at hstops
          exact hstop hstops
        · rw [hmore]
          exact hafter
  · have hgone : ¬n.connected = true := by simp [hdamaged.connected]
    rcases readHandler_damaged hdamaged hread (bytes ++ memory) answers with
      ⟨-, hresult, hafter⟩ | ⟨after, hresult, hstop, hafter⟩
    · rw [hresult]
      refine h.reads (by simp) rfl (fun _ _ _ => rfl) hlistening
        (fun hnone => absurd hnone hsome) (fun _ => hdamaged.connected) (by simp)
        (fun hc => absurd hc hgone) (.inr ?_)
      rw [hclosed]
      exact hafter
    · rw [hresult]
      refine h.reads (by simp) rfl ?_ hlistening (fun hnone => absurd hnone hsome)
        (by simp) (by simp) (fun hc => absurd hc hgone) (.inr ?_)
      · intro e he hstops
        rw [List.mem_singleton.mp he] at hstops
        exact hstop hstops
      · rw [hmore]
        exact hafter

theorem Flowing.next (h : Flowing trace n) {a : Action} (ha : Undisturbed n a)
    (hnext : next n a = some (events, n')) : Flowing (trace ++ events) n' := by
  cases a with
  | queueSend message taken =>
      simp only [ChannelImpl.next, Option.some.injEq, Prod.ext_iff] at hnext
      obtain ⟨rfl, rfl⟩ := hnext
      refine h.sends (fun unsent hsending => queueSend_sends hsending message taken) ?_
      intro m hmem
      rw [eq_of_mem_accepted_queueSend hmem]
      exact ha
  | writeMore bytes =>
      simp only [ChannelImpl.next] at hnext
      split at hnext
      · cases hnext
      · rename_i write left hwrite
        split at hnext
        · rename_i hconnected
          simp only [Option.some.injEq, Prod.mk.injEq] at hnext
          obtain ⟨rfl, rfl⟩ := hnext
          exact h.sends (fun unsent hsending => writeMore_sends hsending hwrite hconnected.1 ha)
            (by simp [accepted])
        · cases hnext
  | writeDone taken =>
      simp only [ChannelImpl.next] at hnext
      split at hnext
      · cases hnext
      · rename_i write left hwrite
        split at hnext
        · rename_i hdone
          simp only [Option.some.injEq, Prod.ext_iff] at hnext
          obtain ⟨rfl, rfl⟩ := hnext
          exact h.sends
            (fun unsent hsending => writeHandler_sends hsending hwrite hdone taken)
            (by simp [accepted_writeHandler])
        · cases hnext
  | startListening =>
      simp only [ChannelImpl.next] at hnext
      split at hnext
      · cases hnext
      · rename_i hfirst
        simp only [Option.some.injEq, Prod.mk.injEq] at hnext
        obtain ⟨rfl, rfl⟩ := hnext
        exact h.startListening (by simpa using hfirst)
  | readSome count =>
      simp only [ChannelImpl.next] at hnext
      split at hnext
      · cases hnext
      · rename_i read bytes hread
        split at hnext
        · simp only [Option.some.injEq, Prod.mk.injEq] at hnext
          obtain ⟨rfl, rfl⟩ := hnext
          exact h.readSome hread count
        · cases hnext
  | readDone memory answers =>
      simp only [ChannelImpl.next] at hnext
      split at hnext
      · cases hnext
      · rename_i read bytes hread
        split at hnext
        · rename_i hdone
          simp only [Option.some.injEq, Prod.ext_iff] at hnext
          obtain ⟨rfl, rfl⟩ := hnext
          exact h.readDone hread hdone.1 hdone.2 answers
        · cases hnext
  | disconnect kept =>
      simp only [ChannelImpl.next] at hnext
      split at hnext
      · rename_i hconnected
        simp only [Option.some.injEq, Prod.mk.injEq] at hnext
        obtain ⟨rfl, rfl⟩ := hnext
        exact h.disconnect hconnected kept
      · cases hnext

end

theorem flowing_init : Flowing [] machine.init := by
  refine ⟨by simp [accepted], ⟨[], [], rfl, .idle, fun _ => rfl⟩, .inl ⟨by simp [received], ?_, ?_⟩,
    fun _ => rfl, by simp, ?_, by simp, by simp, by simp [machine]⟩
  · intro length bytes heq
    cases heq
  · exact List.nil_prefix
  · exact followed_of_forall (by simp)

theorem flowing_of_run {trace : List Event} {n : Network}
    (hrun : (machine.guarded Undisturbed).Run trace n) : Flowing trace n := by
  refine hrun.invariant ?_ ?_
  · rintro n rfl
    exact flowing_init
  · rintro trace n events n' - h ⟨a, ha, hnext⟩
    exact h.next ha hnext

/-- In a connection nothing has been lost, changed or swapped: what has come are the first
messages that have been sent, and all of them once the stream has run dry. The end of the
connection damages at most one message. -/
theorem carried {trace : List Event} {n : Network}
    (hrun : (machine.guarded Undisturbed).Run trace n) : Carried trace n := by
  have h := flowing_of_run hrun
  refine ⟨?_, ?_, h.stopped, h.cut, h.popOfEmpty, h.bounded⟩
  · rcases h.receiver with hwhole | hdamaged
    · exact ⟨received trace, [], by simp, hwhole.isPrefix h.short, by simp, fun _ => rfl⟩
    · obtain ⟨whole, damaged, heq, hprefix, hphase⟩ := hdamaged.messages
      refine ⟨whole, damaged, heq, hprefix, ?_, ?_⟩
      · rcases hphase with ⟨rfl, -⟩ | ⟨hlength, -⟩
        · simp
        · exact hlength
      · intro hconnected
        rw [hdamaged.connected] at hconnected
        cases hconnected
  · intro hconnected hqueue hstream hread
    obtain ⟨gone, unsent, haccepted, hsending, hframes⟩ := h.sender
    rw [hqueue] at haccepted hsending hframes
    have hunsent : unsent = [] := by
      generalize n.write = write at hsending
      cases hsending
      rfl
    have hflat := hframes hconnected
    rw [hunsent, List.take_nil, Network.arrived, hread, hstream, ← haccepted] at hflat
    rcases h.receiver with hwhole | hdamaged
    · exact prefixCode_frame.eq_of_flatMap_eq hwhole.short h.short (by simpa [begun] using hflat)
    · rw [hdamaged.connected] at hconnected
      cases hconnected

/-- A message of two bytes and an empty one, in pieces. -/
theorem carried_sample : ∃ trace n, Carried trace n ∧ n.connected = true ∧
    accepted trace = [[104, 105], []] ∧ received trace = [[104, 105], []] := by
  obtain ⟨trace, n, hrun, hsample⟩ := (machine.restrict Undisturbed).exists_run
    (p := fun r => r.2.connected = true ∧ accepted r.1 = [[104, 105], []] ∧
      received r.1 = [[104, 105], []])
    [.queueSend [104, 105] 4, .queueSend [] 0, .startListening, .readSome 3, .writeDone 1,
      .readSome 1, .readDone [] [], .writeMore [105], .writeDone 4, .writeDone 0, .writeDone 0,
      .readSome 2, .readDone [] [true], .readSome 4, .readDone [] [], .readDone [] [true]]
    (by decide +kernel)
  exact ⟨trace, n, carried (Machine.guarded_of_restrict hrun), hsample⟩

end UniversalDB.ChannelImpl
