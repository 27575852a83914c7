import UniversalDB.Verification.Service.Logs

/-! # The steps of a service on the nodes of a group -/

namespace UniversalDB.Service

variable {κ σ α δ : Type} {n : ℕ} {S : Service (Fin n) κ σ α δ}

/-- What a step can do. The handlers of the group never fail, as the refinement shows. -/
inductive Move (S : Service (Fin n) κ σ α δ) (s : State n σ) :
    Action n α → List (Event n δ) → State n σ → Prop where
  | lose {a position packet} (hpacket : s.network[position]? = some packet) :
      Move S s a [] { s with network := s.network.eraseIdx position }
  | failPropose {i draw a events state index entry exception s'}
      (hact : S.act i a (s.members i).state = some (events, state, some (index, entry)))
      (hcall : (s.members i).multiPaxosHandler.propose (S.paxosLog state) draw entry =
        .error exception) : Move S s (.act i draw a) [] s'
  | failPaxos {position src dst message exception s'}
      (hpacket : s.network[position]? = some ⟨src, dst, .paxosMessage message⟩)
      (hcall : (s.members dst).multiPaxosHandler.handleIncomingMessage src message =
        .error exception) : Move S s (.deliver position) [] s'
  | failSync {position dst request exception s'} (hlive : S.live (s.members dst) = true)
      (hcall : LogSyncer.buildSyncResponse (S.paxosLog (s.members dst).state) request =
        .error exception) : Move S s (.deliver position) [] s'
  | sync {i} (hlive : S.live (s.members i) = true) :
      Move S s (.sync i) [] { s with network := s.network ++ S.sync (s.members i) i }
  | act {i draw a events state} (hlive : S.live (s.members i) = true)
      (hact : S.act i a (s.members i).state = some (events, state, none)) :
      Move S s (.act i draw a) (events.map .service)
        (s.setMember i { s.members i with state := state } s.network)
  | propose {i draw a events state index entry multiPaxosHandler effects}
      (hlive : S.live (s.members i) = true)
      (hact : S.act i a (s.members i).state = some (events, state, some (index, entry)))
      (hdraw : draw ≤ 999) (hlt : index < 2 ^ 32)
      (hcall : (s.members i).multiPaxosHandler.propose (S.paxosLog state) draw entry =
        .ok (multiPaxosHandler, effects)) :
      Move S s (.act i draw a) (events.map .service ++ [.paxos (.proposed i index entry)])
        (s.setMember i ⟨state, multiPaxosHandler, (s.members i).exception⟩
          (s.network ++ effects.flatMap (Group.outgoing i)))
  | paxos {position src dst message multiPaxosHandler effects}
      (hpacket : s.network[position]? = some ⟨src, dst, .paxosMessage message⟩)
      (hlive : S.live (s.members dst) = true)
      (hcall : (s.members dst).multiPaxosHandler.handleIncomingMessage src message =
        .ok (multiPaxosHandler, effects)) :
      Move S s (.deliver position)
        ((effects.filterMap (Group.shown dst message.content)).map .paxos ++
          (S.setEntries dst (s.members dst).state
            (effects.filterMap Group.written)).1.map .service)
        (s.setMember dst
          ⟨(S.setEntries dst (s.members dst).state (effects.filterMap Group.written)).2,
            multiPaxosHandler, (s.members dst).exception⟩
          (s.network.eraseIdx position ++ effects.flatMap (Group.outgoing dst)))
  | syncRequest {position src dst request response}
      (hpacket : s.network[position]? = some ⟨src, dst, .syncRequest request⟩)
      (hlive : S.live (s.members dst) = true)
      (hcall : LogSyncer.buildSyncResponse (S.paxosLog (s.members dst).state) request =
        .ok response) :
      Move S s (.deliver position) []
        { s with
          network := s.network.eraseIdx position ++ [⟨dst, src, .syncResponse response⟩] }
  | syncResponse {position src dst response}
      (hpacket : s.network[position]? = some ⟨src, dst, .syncResponse response⟩)
      (hlive : S.live (s.members dst) = true) :
      Move S s (.deliver position)
        ((S.setEntries dst (s.members dst).state
          (response.missingEntries.map fun x => (x.index.toNat, x.entry))).1.map .service)
        (s.setMember dst
          { s.members dst with
            state := (S.setEntries dst (s.members dst).state
              (response.missingEntries.map fun x => (x.index.toNat, x.entry))).2 }
          (s.network.eraseIdx position))

variable {s s' : State n σ} {events : List (Event n δ)}

theorem move_of_act {i : Fin n} {draw : ℕ} {a : α}
    (h : S.next s (.act i draw a) = some (events, s')) : Move S s (.act i draw a) events s' := by
  simp only [next] at h
  split at h
  · rename_i hlive
    cases hact : S.act i a (s.members i).state with
    | none => simp [hact] at h
    | some result =>
        obtain ⟨shown, state, proposal⟩ := result
        simp only [hact] at h
        cases proposal with
        | none =>
            simp only [finish, Option.some.injEq, Prod.mk.injEq] at h
            obtain ⟨rfl, rfl⟩ := h
            exact .act hlive hact
        | some proposal =>
            obtain ⟨index, entry⟩ := proposal
            simp only [finish] at h
            split at h
            · rename_i hbounds
              cases hcall : (s.members i).multiPaxosHandler.propose (S.paxosLog state) draw
                  entry with
              | error exception =>
                  simp only [hcall, Option.some.injEq, Prod.mk.injEq] at h
                  obtain ⟨rfl, rfl⟩ := h
                  exact .failPropose hact hcall
              | ok result =>
                  simp only [hcall, Option.some.injEq, Prod.mk.injEq] at h
                  obtain ⟨rfl, rfl⟩ := h
                  exact .propose hlive hact hbounds.1 hbounds.2 hcall
            · cases h
  · cases h

theorem move_of_handle {position : ℕ} {packet : Group.Packet n}
    (hpacket : s.network[position]? = some packet)
    (hlive : S.live (s.members packet.dst) = true)
    (h : S.handle s (s.network.eraseIdx position) packet = (events, s')) :
    Move S s (.deliver position) events s' := by
  obtain ⟨src, dst, payload⟩ := packet
  cases payload with
  | paxosMessage message =>
      simp only [handle] at h
      cases hcall : (s.members dst).multiPaxosHandler.handleIncomingMessage src message with
      | error exception =>
          simp only [hcall, Prod.mk.injEq] at h
          obtain ⟨rfl, rfl⟩ := h
          exact .failPaxos hpacket hcall
      | ok result =>
          simp only [hcall, write, Prod.mk.injEq] at h
          obtain ⟨rfl, rfl⟩ := h
          exact .paxos hpacket hlive hcall
  | syncRequest request =>
      simp only [handle] at h
      cases hcall : LogSyncer.buildSyncResponse (S.paxosLog (s.members dst).state) request with
      | error exception =>
          simp only [hcall, Prod.mk.injEq] at h
          obtain ⟨rfl, rfl⟩ := h
          exact .failSync hlive hcall
      | ok response =>
          simp only [hcall, Prod.mk.injEq] at h
          obtain ⟨rfl, rfl⟩ := h
          exact .syncRequest hpacket hlive hcall
  | syncResponse response =>
      simp only [handle, write, List.map_nil, List.nil_append, Prod.mk.injEq] at h
      obtain ⟨rfl, rfl⟩ := h
      exact .syncResponse hpacket hlive

theorem move_of_next {a : Action n α} (h : S.next s a = some (events, s')) :
    Move S s a events s' := by
  cases a with
  | act i draw a => exact move_of_act h
  | sync i =>
      simp only [next] at h
      split at h
      · rename_i hlive
        cases h
        exact .sync hlive
      · cases h
  | deliver position =>
      simp only [next] at h
      cases hpacket : s.network[position]? with
      | none => simp [hpacket] at h
      | some packet =>
          simp only [hpacket] at h
          split at h
          · rename_i hlive
            exact move_of_handle hpacket hlive (Option.some.inj h)
          · cases h
            exact .lose hpacket
  | drop position =>
      simp only [next] at h
      cases hpacket : s.network[position]? with
      | none => simp [hpacket] at h
      | some packet =>
          simp only [hpacket, Option.some.injEq, Prod.mk.injEq] at h
          obtain ⟨rfl, rfl⟩ := h
          exact .lose hpacket

end UniversalDB.Service
