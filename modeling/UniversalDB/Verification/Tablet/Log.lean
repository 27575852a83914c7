import UniversalDB.Verification.Tablet.Runs

/-! # The agreed log of a tablet

Its prefixes can be replayed, and a request has at most one entry. -/

namespace UniversalDB.Tablet

variable {ι ε : Type} [DecidableEq ι] {trace : List (Event ι ε)} {s : State ι ε}

/-! ## A sample run

A client writes through participant `p` and reads what is written through `q`. -/

def sampleWrite : ClientRequest := ⟨"w", .WRITE, "d", "t", "k", some "v", some 5⟩

def sampleRead : ClientRequest := ⟨"r", .READ, "d", "t", "k", none, some 10⟩

def sampleRun (p q : ι) : List (Action ι Unit) :=
  [.request p () sampleWrite, .run p, .choose 0, .learn p 0, .run p, .learn q 0,
    .request q () sampleRead, .run q, .choose 1, .learn q 1, .run q]

/-! ## Legality -/

/-- No write of the agreed log is at or before the last access timestamp of its key. -/
theorem log_legal (h : (machine ι ε).system.Run trace s) (k : ℕ) :
    ∃ store, replay (s.agreedLog.entries.take k) = .ok store :=
  legal_of_pinned (ahead_of_run h).pinned k

theorem log_legal_sample : ∃ (trace : List (Event (Fin 2) Unit)) (s : State (Fin 2) Unit),
    (machine (Fin 2) Unit).system.Run trace s ∧ s.agreedLog.entries.length = 2 ∧
      ∃ store, replay (s.agreedLog.entries.take 2) = .ok store := by
  obtain ⟨trace, s, hrun, hlength⟩ := (machine (Fin 2) Unit).exists_run (sampleRun 0 1)
    (p := fun r => r.2.agreedLog.entries.length = 2) (by decide +kernel)
  exact ⟨trace, s, hrun, hlength, log_legal hrun 2⟩

/-! ## Entries of a request -/

/-- Two indices that hold entries of one request. -/
def SameRequest (G : List PaxosLogEntry) (j j' : ℕ) : Prop :=
  ∃ entry entry' id, G[j]? = some entry ∧ G[j']? = some entry' ∧
    requestId entry = some id ∧ requestId entry' = some id

theorem SameRequest.symm {G : List PaxosLogEntry} {j j' : ℕ} (h : SameRequest G j j') :
    SameRequest G j' j := by
  obtain ⟨entry, entry', id, hentry, hentry', hid, hid'⟩ := h
  exact ⟨entry', entry, id, hentry', hentry, hid', hid⟩

/-- The later entry was not fresh. -/
theorem SameRequest.not_lt {L : AgreedLog PaxosLogEntry}
    (h : AgreedLog.Pinned Admissible L) {j j' : ℕ} (hsame : SameRequest L.entries j j') :
    ¬ j < j' := by
  obtain ⟨entry, entry', id, hentry, hentry', hid, hid'⟩ := hsame
  intro hlt
  have hmem : entry ∈ L.entries.take j' := by
    apply List.mem_of_getElem? (i := j)
    rw [List.getElem?_take_of_lt hlt]
    exact hentry
  exact (h.entries j' entry' hentry').fresh id hid' entry hmem hid

theorem SameRequest.eq {L : AgreedLog PaxosLogEntry} (h : AgreedLog.Pinned Admissible L)
    {j j' : ℕ} (hsame : SameRequest L.entries j j') : j = j' := by
  have hle := hsame.not_lt h
  have hge := hsame.symm.not_lt h
  omega

/-- A request has at most one index in the agreed log, and no participant applies a request
twice. -/
theorem at_most_once (h : (machine ι ε).system.Run trace s) :
    (∀ j j', SameRequest s.agreedLog.entries j j' → j = j') ∧
      trace.Pairwise fun x y => ∀ i j value j' value', x = .applied i j value →
        y = .applied i j' value' → ¬ SameRequest s.agreedLog.entries j j' := by
  have hinv := ahead_of_run h
  have hunique : ∀ j j', SameRequest s.agreedLog.entries j j' → j = j' :=
    fun j j' hsame => hsame.eq hinv.pinned
  refine ⟨hunique, ?_⟩
  have horder : ∀ i, AppliedInOrder i trace := by
    intro i
    obtain ⟨k, hk⟩ := (hinv.participants i).progress
    exact hk.inOrder
  rw [List.pairwise_iff_getElem]
  intro m n hm hn hlt i j value j' value' hx hy hsame
  have hjj' := List.pairwise_iff_getElem.mp (horder i) m n hm hn hlt j value j' value' hx hy
  have heq := hunique j j' hsame
  omega

/-- A client sends a write to both participants, and again when it has been answered. -/
def sentAgain (p q : ι) : List (Action ι Unit) :=
  [.request p () sampleWrite, .request q () sampleWrite, .run p, .run q, .choose 0, .learn p 0,
    .learn q 0, .run p, .run q, .request q () sampleWrite, .run q]

theorem at_most_once_sample :
    ∃ (trace : List (Event (Fin 2) Unit)) (s : State (Fin 2) Unit),
      (machine (Fin 2) Unit).system.Run trace s ∧
        (∀ i, .proposed i 0 (.write ⟨some "w", some "k", some "v", some 5⟩) ∈ trace) ∧
        (∀ i, .applied i 0 none ∈ trace) ∧
        (∀ j j', SameRequest s.agreedLog.entries j j' → j = j') ∧
        trace.Pairwise fun x y => ∀ i j value j' value', x = .applied i j value →
          y = .applied i j' value' → ¬ SameRequest s.agreedLog.entries j j' := by
  obtain ⟨trace, s, hrun, hproposed, happlied⟩ :=
    (machine (Fin 2) Unit).exists_run (sentAgain 0 1)
      (p := fun r =>
        (∀ i, .proposed i 0 (.write ⟨some "w", some "k", some "v", some 5⟩) ∈ r.1) ∧
        ∀ i, .applied i 0 none ∈ r.1) (by decide +kernel)
  exact ⟨trace, s, hrun, hproposed, happlied, at_most_once hrun⟩

end UniversalDB.Tablet
