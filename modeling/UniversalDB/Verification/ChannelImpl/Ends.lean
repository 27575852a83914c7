import UniversalDB.Verification.ChannelImpl.Frames

/-! # The two ends of a connection

The message in front of the queue is the one whose frame is being written. The frames of
the messages that the receiver has taken out, with what it has read of the next one, are
the bytes that have come. A connection that goes inside a frame leaves a receiver that goes
on with what has been in its memory. -/

namespace UniversalDB.ChannelImpl

/-! ## Traces -/

/-- The messages that `queue_send` has taken, in this order. -/
def accepted (trace : List Event) : List Message :=
  trace.filterMap fun
    | .accepted message => some message
    | _ => none

/-- The messages that the receive callbacks have been run with, in this order. -/
def received (trace : List Event) : List Message :=
  trace.filterMap fun
    | .received message _ => some message
    | _ => none

@[simp] theorem accepted_append (trace events : List Event) :
    accepted (trace ++ events) = accepted trace ++ accepted events :=
  List.filterMap_append

@[simp] theorem received_append (trace events : List Event) :
    received (trace ++ events) = received trace ++ received events :=
  List.filterMap_append

/-! ## The sender -/

/-- What the current write has still to do with its buffer. -/
def Network.pending (n : Network) : List UInt8 :=
  match n.write, n.messageQueue with
  | some (.header message, left), _ => (intToStr message.length).drop (4 - left)
  | some (.body, left), front :: _ => front.drop (front.length - left)
  | _, _ => []

/-- The message in front is the one that is being sent, and `unsent` is the rest of its
frame. -/
inductive Sending : Option (Write × ℕ) → List Message → List UInt8 → Prop where
  | idle : Sending none [] []
  | header {message sent left} (rest : List Message) :
      intToStr message.length = sent ++ left →
      Sending (some (.header message, left.length)) (message :: rest) (left ++ message)
  | body {message sent left} (rest : List Message) : message = sent ++ left →
      Sending (some (.body, left.length)) (message :: rest) left

theorem asyncWrite_eq (n : Network) (write : Write) (buffer : List UInt8) (taken : ℕ) :
    ∃ sent left, buffer = sent ++ left ∧ (n.connected = false → sent = []) ∧
      n.asyncWrite write buffer taken =
        { n with write := some (write, left.length), stream := n.stream ++ sent } := by
  by_cases hconnected : n.connected
  · refine ⟨buffer.take taken, buffer.drop taken, (List.take_append_drop _ _).symm,
      by simp [hconnected], ?_⟩
    simp only [Network.asyncWrite, hconnected, if_true, List.length_drop, List.length_take]
    congr 3
    omega
  · exact ⟨[], buffer, rfl, fun _ => rfl, by simp [Network.asyncWrite, hconnected]⟩

/-- What a step of the sender does: `gone` are the messages that have been sent, and
`sent` are the bytes that the socket takes. -/
structure Sends (n : Network) (unsent : List UInt8) (events : List Event) (n' : Network)
    (unsent' : List UInt8) (gone : List Message) (sent : List UInt8) : Prop where
  sending : Sending n'.write n'.messageQueue unsent'
  queue : n.messageQueue ++ accepted events = gone ++ n'.messageQueue
  stream : n'.stream = n.stream ++ sent
  lost : n.connected = false → sent = []
  frames : n.connected = true → ∃ begun,
    (gone ++ n'.messageQueue.take 1).flatMap frame =
      (n.messageQueue.take 1).flatMap frame ++ begun ∧ unsent ++ begun = sent ++ unsent'
  events : ∀ e ∈ events, ∃ message, e = .accepted message ∨ e = .dropped message
  connected : n'.connected = n.connected
  listening : n'.listening = n.listening
  read : n'.read = n.read
  bounded : n.messageQueue.length ≤ ChannelTesting.MAX_MESSAGES_QUEUE_SIZE →
    n'.messageQueue.length ≤ ChannelTesting.MAX_MESSAGES_QUEUE_SIZE

theorem eq_of_mem_accepted_queueSend {n : Network} {message m : Message} {taken : ℕ}
    (h : m ∈ accepted (n.queueSend message taken).1) : m = message := by
  simp only [Network.queueSend] at h
  split_ifs at h
  · simpa [accepted] using h
  · simpa [accepted] using h
  · simp [accepted] at h

theorem accepted_writeHandler (n : Network) (taken : ℕ) (write : Write) :
    accepted (n.writeHandler taken write).1 = [] := by
  cases write with
  | header message => rfl
  | body =>
      simp only [Network.writeHandler]
      split
      · rfl
      · split <;> rfl

theorem queueSend_sends {n : Network} {unsent : List UInt8}
    (h : Sending n.write n.messageQueue unsent) (message : Message) (taken : ℕ) :
    ∃ unsent' gone sent, Sends n unsent (n.queueSend message taken).1
      (n.queueSend message taken).2 unsent' gone sent := by
  by_cases hlt : n.messageQueue.length < ChannelTesting.MAX_MESSAGES_QUEUE_SIZE
  · by_cases hempty : n.messageQueue = []
    · obtain ⟨rfl, hwrite⟩ : unsent = [] ∧ n.write = none := by
        rw [hempty] at h
        generalize n.write = write at h
        cases h
        exact ⟨rfl, rfl⟩
      obtain ⟨sent, left, hbuffer, hlost, heq⟩ :=
        asyncWrite_eq { n with messageQueue := [message] } (.header message)
          (intToStr message.length) taken
      have hresult : n.queueSend message taken = ([.accepted message],
          { n with
            messageQueue := [message]
            write := some (.header message, left.length)
            stream := n.stream ++ sent }) := by
        rw [Network.queueSend, if_pos hlt]
        simp only [hempty, List.nil_append, List.length_singleton, if_true, Network.send, heq]
      rw [hresult]
      refine ⟨left ++ message, [], sent, .header [] hbuffer, ?_, rfl, hlost, ?_, by simp, rfl,
        rfl, rfl, fun _ => ?_⟩
      · simp [hempty, accepted]
      · intro _
        refine ⟨frame message, by simp [hempty], ?_⟩
        rw [List.nil_append, frame, hbuffer, List.append_assoc]
      · simp [ChannelTesting.MAX_MESSAGES_QUEUE_SIZE]
    · have hresult : n.queueSend message taken = ([.accepted message],
          { n with messageQueue := n.messageQueue ++ [message] }) := by
        have hlength : (n.messageQueue ++ [message]).length ≠ 1 := by simpa using hempty
        simp only [Network.queueSend, if_pos hlt, if_neg hlength]
      obtain ⟨front, rest, hqueue⟩ := List.exists_cons_of_ne_nil hempty
      rw [hresult]
      refine ⟨unsent, [], [], ?_, ?_, (List.append_nil _).symm, fun _ => rfl, ?_, by simp, rfl,
        rfl, rfl, fun _ => by simpa using hlt⟩
      · change Sending n.write (n.messageQueue ++ [message]) unsent
        rw [hqueue] at h ⊢
        generalize n.write = write at h
        cases h with
        | header rest hbuffer => exact .header _ hbuffer
        | body rest hbuffer => exact .body _ hbuffer
      · simp [accepted]
      · intro _
        exact ⟨[], by simp [hqueue], by simp⟩
  · have hresult : n.queueSend message taken = ([.dropped message], n) := by
      simp only [Network.queueSend, if_neg hlt]
    rw [hresult]
    refine ⟨unsent, [], [], h, by simp [accepted], by simp, fun _ => rfl, ?_, by simp, rfl, rfl,
      rfl, id⟩
    intro _
    exact ⟨[], by simp, by simp⟩

/-- The handler of a write finds the message in front that it has written. -/
theorem writeHandler_sends {n : Network} {unsent : List UInt8}
    (h : Sending n.write n.messageQueue unsent) {write : Write} {left : ℕ}
    (hwrite : n.write = some (write, left)) (hdone : left = 0 ∨ n.connected = false)
    (taken : ℕ) :
    ∃ unsent' gone sent, Sends n unsent (n.writeHandler taken write).1
      (n.writeHandler taken write).2 unsent' gone sent := by
  rw [hwrite] at h
  generalize hqueue : n.messageQueue = queue at h
  cases h with
  | @header message sent₀ left₀ rest hbuffer₀ =>
      obtain ⟨sent, left, hbuffer, hlost, heq⟩ := asyncWrite_eq n .body message taken
      refine ⟨left, [], sent, ?_⟩
      simp only [Network.writeHandler, heq]
      refine ⟨?_, by simp [accepted], rfl, hlost, ?_, by simp, rfl, rfl, rfl, id⟩
      · simp only [hqueue]
        exact .body rest hbuffer
      · intro hconnected
        have hnil : left₀ = [] := by simpa [hconnected] using hdone
        exact ⟨[], by simp, by simpa [hnil] using hbuffer⟩
  | @body message sent₀ _ rest hbuffer₀ =>
      cases rest with
      | nil =>
          refine ⟨[], [message], [], ?_⟩
          simp only [Network.writeHandler, hqueue]
          refine ⟨.idle, by simp [accepted, hqueue], by simp, fun _ => rfl, ?_, by simp, rfl,
            rfl, rfl, by simp⟩
          intro hconnected
          have hnil : unsent = [] := by simpa [hconnected] using hdone
          exact ⟨[], by simp [hqueue], by simp [hnil]⟩
      | cons front rest =>
          obtain ⟨sent, left, hbuffer, hlost, heq⟩ :=
            asyncWrite_eq { n with messageQueue := front :: rest, write := none } (.header front)
              (intToStr front.length) taken
          refine ⟨left ++ front, [message], sent, ?_⟩
          simp only [Network.writeHandler, hqueue, Network.send, heq]
          refine ⟨.header rest hbuffer, by simp [accepted, hqueue], rfl, hlost, ?_, by simp, rfl,
            rfl, rfl, ?_⟩
          · intro hconnected
            have hnil : unsent = [] := by simpa [hconnected] using hdone
            refine ⟨frame front, by simp [hqueue], ?_⟩
            rw [hnil, List.nil_append, frame, hbuffer, List.append_assoc]
          · intro hbound
            simp only [hqueue, List.length_cons] at hbound ⊢
            omega

/-- A write that goes on with what has been in its buffer. -/
theorem writeMore_sends {n : Network} {unsent : List UInt8}
    (h : Sending n.write n.messageQueue unsent) {write : Write} {left : ℕ}
    (hwrite : n.write = some (write, left)) (hconnected : n.connected = true)
    {bytes : List UInt8} (hbytes : bytes <+: n.pending) :
    ∃ unsent' gone sent, Sends n unsent [] { n with
      write := some (write, left - bytes.length)
      stream := n.stream ++ bytes } unsent' gone sent := by
  rw [hwrite] at h
  simp only [Network.pending, hwrite] at hbytes
  generalize hqueue : n.messageQueue = queue at h hbytes
  cases h with
  | @header message sent₀ left₀ rest hbuffer₀ =>
      have hpending : (intToStr message.length).drop (4 - left₀.length) = left₀ := by
        have hlength : sent₀.length + left₀.length = 4 := by
          rw [← List.length_append, ← hbuffer₀, length_intToStr]
        rw [hbuffer₀, show 4 - left₀.length = sent₀.length by omega, List.drop_left]
      simp only [hpending] at hbytes
      obtain ⟨left', rfl⟩ := hbytes
      refine ⟨left' ++ message, [], bytes, ?_, by simp [accepted, hqueue], rfl,
        by simp [hconnected], ?_, by simp, rfl, rfl, rfl, by rw [hqueue]; exact id⟩
      · simp only [List.length_append, Nat.add_sub_cancel_left]
        exact .header rest (hbuffer₀.trans (List.append_assoc _ _ _).symm)
      · intro _
        exact ⟨[], by simp [hqueue], by simp⟩
  | @body message sent₀ _ rest hbuffer₀ =>
      have hpending : message.drop (message.length - unsent.length) = unsent := by
        rw [hbuffer₀, List.length_append, Nat.add_sub_cancel, List.drop_left]
      simp only [hpending] at hbytes
      obtain ⟨left', rfl⟩ := hbytes
      refine ⟨left', [], bytes, ?_, by simp [accepted, hqueue], rfl, by simp [hconnected], ?_,
        by simp, rfl, rfl, rfl, by rw [hqueue]; exact id⟩
      · simp only [List.length_append, Nat.add_sub_cancel_left]
        exact .body rest (hbuffer₀.trans (List.append_assoc _ _ _).symm)
      · intro _
        exact ⟨[], by simp [hqueue], by simp⟩

/-! ## The receiver -/

/-- The bytes of the current frame that have been read. -/
def begun : Option (Read × List UInt8) → List UInt8
  | none => []
  | some (.header, bytes) => bytes
  | some (.body length, bytes) => intToStr length ++ bytes

/-- What the receiver has read and can read, when it has taken out the given messages. -/
def Network.arrived (n : Network) (messages : List Message) : List UInt8 :=
  messages.flatMap frame ++ begun n.read ++ n.stream

/-- Nothing has come but the frames of the messages that have been accepted. -/
structure Whole (sent messages : List Message) (n : Network) : Prop where
  short : ∀ message ∈ messages, Short message
  length : ∀ length bytes, n.read = some (.body length, bytes) → length < 2 ^ 31
  arrived : n.arrived messages <+: sent.flatMap frame

/-- The connection has gone inside a frame, and the receiver has gone on. -/
structure Damaged (sent messages : List Message) (n : Network) : Prop where
  connected : n.connected = false
  stream : n.stream = []
  messages : ∃ whole damaged, messages = whole ++ damaged ∧ whole <+: sent ∧
    (damaged = [] ∧ (∃ length, n.read = some (.body length, [])) ∨
      damaged.length ≤ 1 ∧ (n.read = none ∨ n.read = some (.header, [])))

theorem Whole.isPrefix {sent messages : List Message} {n : Network}
    (h : Whole sent messages n) (hsent : ∀ message ∈ sent, Short message) :
    messages <+: sent := by
  refine prefixCode_frame.isPrefix_of_flatMap h.short hsent (List.IsPrefix.trans ?_ h.arrived)
  rw [Network.arrived, List.append_assoc]
  exact List.prefix_append _ _

/-- A header that has come whole is the length of the next message. -/
theorem Whole.header {sent messages : List Message} {n : Network}
    (h : Whole sent messages n) (hsent : ∀ message ∈ sent, Short message) {bytes : List UInt8}
    (hread : n.read = some (.header, bytes)) (hbytes : bytes.length = 4) :
    0 ≤ strToInt bytes := by
  obtain ⟨rest, rfl⟩ := h.isPrefix hsent
  have harrived := h.arrived
  rw [Network.arrived, hread, List.flatMap_append, List.append_assoc,
    List.prefix_append_right_inj] at harrived
  have hbegin : bytes <+: rest.flatMap frame := (List.prefix_append _ _).trans harrived
  cases rest with
  | nil =>
      rw [List.flatMap_nil, List.prefix_nil] at hbegin
      rw [hbegin] at hbytes
      cases hbytes
  | cons message rest =>
      rw [List.flatMap_cons, frame, List.append_assoc] at hbegin
      have hheader : bytes = intToStr message.length :=
        (List.prefix_of_prefix_length_le hbegin (List.prefix_append _ _)
          (by rw [hbytes, length_intToStr])).eq_of_length hbytes
      rw [hheader, strToInt_intToStr (hsent message (by simp))]
      exact Int.natCast_nonneg _

/-- The stream and what has been read of it, after a step that does not touch them. -/
theorem Whole.of_eq {sent messages sent' : List Message} {n n' : Network}
    (h : Whole sent messages n) (hread : n'.read = n.read) (hstream : n'.stream <+: n.stream)
    (hsent : sent <+: sent') : Whole sent' messages n' where
  short := h.short
  length length bytes heq := h.length length bytes (hread ▸ heq)
  arrived := by
    have hframes : sent.flatMap frame <+: sent'.flatMap frame := by
      obtain ⟨rest, rfl⟩ := hsent
      rw [List.flatMap_append]
      exact List.prefix_append _ _
    refine List.IsPrefix.trans ?_ (h.arrived.trans hframes)
    rw [Network.arrived, Network.arrived, hread, List.prefix_append_right_inj]
    exact hstream

/-- The handler of a read that has been filled takes nothing from what has arrived. -/
theorem readHandler_whole {sent messages : List Message} {n : Network}
    (h : Whole sent messages n) (hsent : ∀ message ∈ sent, Short message) {read : Read}
    {bytes : List UInt8} (hread : n.read = some (read, bytes)) (hfull : bytes.length = read.size)
    (answers : List Bool) :
    ∃ events after, n.readHandler bytes bytes.length answers read =
        (events, { n with read := after }) ∧
      (events = [] ∨ events = [.received bytes (Network.runCallbacks answers)] ∧
        (false ∈ Network.runCallbacks answers → after = none)) ∧
      (∀ message ∈ received events, Short message) ∧
      (∀ length rest, after = some (.body length, rest) → length < 2 ^ 31) ∧
      Network.arrived { n with read := after } (messages ++ received events) =
        n.arrived messages := by
  cases read with
  | header =>
      have hlength : bytes.length ≠ 0 := by rw [hfull]; decide
      have hnonneg := h.header hsent hread hfull
      obtain ⟨hheader, hlt⟩ := intToStr_strToInt hfull hnonneg
      refine ⟨[], some (.body (strToInt bytes).toNat, []), ?_, .inl rfl, by simp [received], ?_,
        ?_⟩
      · simp only [Network.readHandler, if_neg hlength, if_neg (Int.not_lt.mpr hnonneg)]
      · rintro length rest heq
        cases heq
        exact hlt
      · simp [Network.arrived, begun, hheader, hread, received]
  | body length =>
      have hframe : frame bytes = intToStr length ++ bytes := by rw [frame, hfull]; rfl
      have hshort : Short bytes := by
        rw [Short, hfull]
        exact h.length length bytes hread
      by_cases hstop : false ∈ Network.runCallbacks answers
      · refine ⟨_, none, ?_, .inr ⟨rfl, fun _ => rfl⟩, by simpa [received] using hshort, by simp,
          by simp [Network.arrived, begun, hread, received, hframe]⟩
        simp only [Network.readHandler, if_pos hstop]
      · refine ⟨_, some (.header, []), ?_, .inr ⟨rfl, fun h => absurd h hstop⟩,
          by simpa [received] using hshort, by simp,
          by simp [Network.arrived, begun, hread, received, hframe]⟩
        simp only [Network.readHandler, if_neg hstop, Network.recv]

/-- The handler of a read that the end of the connection has cut short. -/
theorem readHandler_whole_of_cut {sent messages : List Message} {n : Network}
    (h : Whole sent messages n) (hsent : ∀ message ∈ sent, Short message)
    (hconnected : n.connected = false) (hstream : n.stream = []) {read : Read}
    {bytes : List UInt8} (hread : n.read = some (read, bytes)) (buffer : List UInt8)
    (answers : List Bool) :
    (bytes = [] ∧ n.readHandler buffer bytes.length answers read =
        ([.closed], { n with read := none }) ∧ Whole sent messages { n with read := none }) ∨
      (∃ events after, n.readHandler buffer bytes.length answers read =
        (events, { n with read := after }) ∧
        (events = [] ∨ events = [.badLength] ∧ after = none) ∧
        Damaged sent messages { n with read := after }) ∨
      ∃ after, n.readHandler buffer bytes.length answers read =
        ([.received buffer (Network.runCallbacks answers)], { n with read := after }) ∧
        (false ∈ Network.runCallbacks answers → after = none) ∧
        Damaged sent (messages ++ [buffer]) { n with read := after } := by
  have hbegin := h.isPrefix hsent
  cases read with
  | header =>
      by_cases hlength : bytes.length = 0
      · have hnil : bytes = [] := List.length_eq_zero_iff.mp hlength
        refine .inl ⟨hnil, by simp only [Network.readHandler, if_pos hlength], h.short,
          by simp, ?_⟩
        have harrived := h.arrived
        rw [Network.arrived, hread, hnil] at harrived
        exact harrived
      · refine .inr (.inl ?_)
        by_cases hneg : strToInt buffer < 0
        · refine ⟨[.badLength], none, ?_, .inr ⟨rfl, rfl⟩, hconnected, hstream, messages, [],
            by simp, hbegin, .inr ⟨by simp, .inl rfl⟩⟩
          simp only [Network.readHandler, if_neg hlength, if_pos hneg]
        · refine ⟨[], some (.body (strToInt buffer).toNat, []), ?_, .inl rfl, hconnected,
            hstream, messages, [], by simp, hbegin, .inl ⟨rfl, _, rfl⟩⟩
          simp only [Network.readHandler, if_neg hlength, if_neg hneg]
  | body length =>
      refine .inr (.inr ?_)
      by_cases hstop : false ∈ Network.runCallbacks answers
      · refine ⟨none, ?_, fun _ => rfl, hconnected, hstream, messages, [buffer], rfl, hbegin,
          .inr ⟨by simp, .inl rfl⟩⟩
        simp only [Network.readHandler, if_pos hstop]
      · refine ⟨some (.header, []), ?_, fun h => absurd h hstop, hconnected, hstream, messages,
          [buffer], rfl, hbegin, .inr ⟨by simp, .inr rfl⟩⟩
        simp only [Network.readHandler, if_neg hstop, Network.recv]

/-- After the frame that has been damaged there is the end of the stream. -/
theorem readHandler_damaged {sent messages : List Message} {n : Network}
    (h : Damaged sent messages n) {read : Read} {bytes : List UInt8}
    (hread : n.read = some (read, bytes)) (buffer : List UInt8) (answers : List Bool) :
    (bytes = [] ∧ n.readHandler buffer bytes.length answers read =
        ([.closed], { n with read := none }) ∧
        Damaged sent messages { n with read := none }) ∨
      ∃ after, n.readHandler buffer bytes.length answers read =
        ([.received buffer (Network.runCallbacks answers)], { n with read := after }) ∧
        (false ∈ Network.runCallbacks answers → after = none) ∧
        Damaged sent (messages ++ [buffer]) { n with read := after } := by
  obtain ⟨whole, damaged, rfl, hbegin, hphase⟩ := h.messages
  rcases hphase with ⟨rfl, length, hbody⟩ | ⟨hlength, hnone | hheader⟩
  · obtain ⟨rfl, rfl⟩ : read = .body length ∧ bytes = [] := by simpa [hread] using hbody
    refine .inr ?_
    rw [List.append_nil]
    by_cases hstop : false ∈ Network.runCallbacks answers
    · refine ⟨none, ?_, fun _ => rfl, h.connected, h.stream, whole, [buffer], rfl, hbegin,
        .inr ⟨by simp, .inl rfl⟩⟩
      simp only [Network.readHandler, if_pos hstop]
    · refine ⟨some (.header, []), ?_, fun h => absurd h hstop, h.connected, h.stream, whole,
        [buffer], rfl, hbegin, .inr ⟨by simp, .inr rfl⟩⟩
      simp only [Network.readHandler, if_neg hstop, Network.recv]
  · rw [hread] at hnone
    cases hnone
  · obtain ⟨rfl, rfl⟩ : read = .header ∧ bytes = [] := by simpa [hread] using hheader
    refine .inl ⟨rfl, rfl, h.connected, h.stream, whole, damaged, rfl, hbegin,
      .inr ⟨hlength, .inl rfl⟩⟩

end UniversalDB.ChannelImpl
