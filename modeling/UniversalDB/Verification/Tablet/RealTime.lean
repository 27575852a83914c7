import UniversalDB.Verification.Tablet.Log

/-! # The order of requests in real time

A request that is made after another one has been answered comes behind it in the agreed
log. -/

namespace UniversalDB.Tablet

variable {ι ε : Type} {trace events : List (Event ι ε)} {s : State ι ε}
  {G : List PaxosLogEntry}

/-- No request with this id has been made. -/
def NewId (before : List (Event ι ε)) (id : String) : Prop :=
  ∀ i endpointId message, .requested i endpointId message ∈ before → message.requestId ≠ id

/-- An entry of a request lies behind those of the requests that had been answered when it
was made for the first time. -/
def InRealTime (trace : List (Event ι ε)) (G : List PaxosLogEntry) : Prop :=
  ∀ before i endpointId message after,
    trace = before ++ .requested i endpointId message :: after →
    NewId before message.requestId →
    ∀ i' endpointId' message' index response,
      .responded i' endpointId' message' (some index) response ∈ before →
      ∀ (index' : ℕ) entry, G[index']? = some entry →
        requestId entry = some message.requestId → index < index'

theorem inRealTime_nil : InRealTime ([] : List (Event ι ε)) G := by
  intro before i endpointId message after htrace
  simp at htrace

theorem InRealTime.frame (h : InRealTime trace G)
    (hevents : ∀ i endpointId message, .requested i endpointId message ∉ events) :
    InRealTime (trace ++ events) G := by
  intro before i endpointId message after htrace
  rcases append_eq_append_cons htrace with ⟨pre, -, hnew⟩ | ⟨tail, hold, -⟩
  · exact absurd (by simp [hnew]) (hevents i endpointId message)
  · exact h before i endpointId message tail hold

/-- A new request has no entry yet. -/
theorem InRealTime.request (h : InRealTime trace G)
    (hrequested : ∀ (index : ℕ) entry, G[index]? = some entry → Requested trace entry)
    (i : ι) (endpointId : ε) (message : ClientRequest) :
    InRealTime (trace ++ [.requested i endpointId message]) G := by
  intro before i₁ endpointId₁ message₁ after htrace hnew
  rcases concat_eq_append_cons htrace with ⟨rfl, heq, -⟩ | ⟨tail, hold, -⟩
  · cases heq
    intro _ _ _ index _ _ index' entry hentry hid
    obtain ⟨i₂, endpointId₂, message₂, hmem, hlog⟩ := hrequested index' entry hentry
    rw [requestId_logEntry hlog] at hid
    exact absurd (Option.some.inj hid) (hnew i₂ endpointId₂ message₂ hmem)
  · exact h before i₁ endpointId₁ message₁ tail hold hnew

/-- The next entry of the log lies behind all answered ones. -/
theorem InRealTime.concat (h : InRealTime trace G)
    (hanswered : ∀ i endpointId message index response,
      .responded i endpointId message (some index) response ∈ trace → index < G.length)
    (e : PaxosLogEntry) : InRealTime trace (G ++ [e]) := by
  intro before i endpointId message after htrace hnew i' endpointId' message' index response
    hmem index' entry hentry hid
  by_cases hlt : index' < G.length
  · rw [List.getElem?_append_left hlt] at hentry
    exact h before i endpointId message after htrace hnew i' endpointId' message' index response
      hmem index' entry hentry hid
  · have hindex := hanswered i' endpointId' message' index response (by simp [htrace, hmem])
    omega

variable [DecidableEq ι]

theorem inRealTime_of_run (h : (machine ι ε).system.Run trace s) :
    InRealTime trace s.agreedLog.entries := by
  apply h.invariant (I := fun trace s => InRealTime trace s.agreedLog.entries)
  · rintro s rfl
    exact inRealTime_nil
  · rintro trace s events s' hrun ih ⟨a, -, hnext⟩
    have hinv := ahead_of_run hrun
    cases move_of_next hnext with
    | request i endpointId message => exact ih.request hinv.entries i endpointId message
    | fail hqueue hlive hrun => exact ih.frame (by simp)
    | respond hqueue hlive hanswer => exact ih.frame (by simp)
    | propose hqueue hlive hid hlegal hentry hindex => exact ih.frame (by simp)
    | @failPropose i exception s' hindex =>
        obtain ⟨m, hm, -⟩ := (hinv.participants i).wellFormed.nextAvailableIndex
        rw [hindex] at hm
        cases hm
    | choose hlength hchoose =>
        obtain ⟨e, -, hentries, -⟩ := AgreedLog.choose_cases hchoose
        rw [List.append_nil]
        simp only [hentries]
        apply ih.concat
        intro i endpointId message index response hmem
        obtain ⟨-, entry, hentry, -⟩ := hinv.responded _ _ _ _ _ hmem
        exact (List.getElem?_eq_some_iff.mp hentry).1
    | @learn i index entry hlive hentry =>
        have hlt := (List.getElem?_eq_some_iff.mp hentry).1
        have hlength := hinv.length
        obtain ⟨happlied, -⟩ := (hinv.participants i).learn coupling_ahead
          (legal_of_pinned hinv.pinned) hlive hentry (by omega)
        apply ih.frame
        intro i' endpointId message hmem
        obtain ⟨j, value, heq⟩ := happlied _ hmem
        cases heq

end UniversalDB.Tablet
