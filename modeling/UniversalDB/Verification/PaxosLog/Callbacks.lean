import UniversalDB.Verification.PaxosLog.Invariant

/-! # The order in which callbacks are called -/

namespace UniversalDB.PaxosLog

variable {κ : Type}

/-- A fresh log on which callbacks have been registered. -/
def register (registrations : List (EntryContentCase × κ)) : PaxosLog κ :=
  registrations.foldl (fun l registration => l.addCallback registration.1 registration.2) new

/-- The first entry that a sequence of `setEntry` calls sets at an index. -/
def firstEntry (entries : List (ℕ × PaxosLogEntry)) (index : ℕ) : Option PaxosLogEntry :=
  (entries.find? fun p => p.1 = index).map Prod.snd

/-- The calls that are due for the indices below `m`, by ascending index and then in
registration order. -/
def callsDue (registrations : List (EntryContentCase × κ)) (log : KeyMap ℕ PaxosLogEntry)
    (m : ℕ) : List (Call κ) :=
  (List.range m).flatMap fun i =>
    (log i).toList.flatMap fun entry =>
      (registrations.filter fun r => r.1 = entry.entryContentCase).map fun r =>
        ⟨r.2, i, entry⟩

/-! ## Registration -/

theorem foldl_addCallback (registrations : List (EntryContentCase × κ)) (l : PaxosLog κ)
    (h : l.WellFormed) :
    let l' := registrations.foldl (fun l r => l.addCallback r.1 r.2) l
    l'.WellFormed ∧ l'.log = l.log ∧
      ∀ c, l'.callbacks c = l.callbacks c ++
        (registrations.filter fun r => r.1 = c).map Prod.snd := by
  induction registrations generalizing l with
  | nil => simpa using h
  | cons r registrations ih =>
      obtain ⟨hwf, hlog, hcallbacks⟩ := ih (l.addCallback r.1 r.2) (h.addCallback r.1 r.2)
      refine ⟨hwf, hlog, ?_⟩
      intro c
      rw [List.foldl_cons, hcallbacks c]
      by_cases hc : r.1 = c
      · subst c
        simp [addCallback]
      · have hne : c ≠ r.1 := fun heq => hc heq.symm
        simp [addCallback, hc, Function.update_of_ne hne]

theorem register_wellFormed (registrations : List (EntryContentCase × κ)) :
    (register registrations).WellFormed :=
  (foldl_addCallback registrations new new_wellFormed).1

@[simp] theorem register_log (registrations : List (EntryContentCase × κ)) :
    (register registrations).log = KeyMap.empty :=
  (foldl_addCallback registrations new new_wellFormed).2.1

theorem register_availableIndices (registrations : List (EntryContentCase × κ)) :
    (register registrations).availableIndices = [0] := by
  have hfoldl : ∀ l : PaxosLog κ,
      (registrations.foldl (fun l r => l.addCallback r.1 r.2) l).availableIndices =
        l.availableIndices := by
    induction registrations with
    | nil => exact fun _ => rfl
    | cons r registrations ih => exact fun l => ih (l.addCallback r.1 r.2)
  exact hfoldl new

theorem register_callbacks (registrations : List (EntryContentCase × κ))
    (c : EntryContentCase) :
    (register registrations).callbacks c =
      (registrations.filter fun r => r.1 = c).map Prod.snd :=
  (foldl_addCallback registrations new new_wellFormed).2.2 c

/-! ## Calls -/

theorem callsAt_congr {l l' : PaxosLog κ} (hcallbacks : l'.callbacks = l.callbacks) {i : ℕ}
    (hlog : l'.log i = l.log i) : l'.callsAt i = l.callsAt i := by
  simp only [callsAt, hcallbacks, hlog]

theorem callsBetween_congr {l l' : PaxosLog κ} (hcallbacks : l'.callbacks = l.callbacks)
    {m m' : ℕ} (hlog : ∀ i < m', l'.log i = l.log i) :
    l'.callsBetween m m' = l.callsBetween m m' := by
  simp only [callsBetween, List.flatMap]
  congr 1
  apply List.map_congr_left
  intro i hi
  rw [List.mem_range'_1] at hi
  exact callsAt_congr hcallbacks (hlog i (by omega))

@[simp] theorem callsBetween_self (l : PaxosLog κ) (m : ℕ) : l.callsBetween m m = [] := by
  simp [callsBetween]

theorem callsBetween_succ (l : PaxosLog κ) (k d : ℕ) :
    l.callsBetween k (k + (d + 1)) = l.callsAt k ++ l.callsBetween (k + 1) (k + 1 + d) := by
  have hlen : k + (d + 1) - k = d + 1 := by omega
  have hlen' : k + 1 + d - (k + 1) = d := by omega
  simp only [callsBetween, hlen, hlen', List.range'_succ, List.flatMap_cons]

theorem callsBetween_append (l : PaxosLog κ) {m m' m'' : ℕ} (h : m ≤ m') (h' : m' ≤ m'') :
    l.callsBetween m m' ++ l.callsBetween m' m'' = l.callsBetween m m'' := by
  have hsplit := List.range'_append_1 (s := m) (m := m' - m) (n := m'' - m')
  have hstart : m + (m' - m) = m' := by omega
  have hlen : m' - m + (m'' - m') = m'' - m := by omega
  rw [hstart, hlen] at hsplit
  simp only [callsBetween]
  rw [← List.flatMap_append, hsplit]

/-! ## Sequences of calls -/

@[simp] theorem firstEntry_nil (index : ℕ) : firstEntry [] index = none := rfl

theorem firstEntry_cons (index : ℕ) (entry : PaxosLogEntry)
    (entries : List (ℕ × PaxosLogEntry)) (i : ℕ) :
    firstEntry ((index, entry) :: entries) i =
      if index = i then some entry else firstEntry entries i := by
  by_cases h : index = i <;> simp [firstEntry, h]

/-- What a sequence of `setEntry` calls does to a well-formed log. -/
structure SetEntries (l : PaxosLog κ) (entries : List (ℕ × PaxosLogEntry))
    (l' : PaxosLog κ) (calls : List (Call κ)) : Prop where
  wellFormed : l'.WellFormed
  log : ∀ i, l'.log i = (l.log i).or (firstEntry entries i)
  callbacks : l'.callbacks = l.callbacks
  calls : ∀ m m', l.log.FirstGap m → l'.log.FirstGap m' → calls = l'.callsBetween m m'

theorem SetEntries.subMap {l l' : PaxosLog κ} {entries : List (ℕ × PaxosLogEntry)}
    {calls : List (Call κ)} (h : l.SetEntries entries l' calls) : l.log.SubMap l'.log := by
  intro i entry hi
  rw [h.log i, hi]
  rfl

/-- The calls of two sequences that follow each other are the calls of the whole: the
entries below the first gap in between do not change any more. -/
theorem SetEntry.append {l l₁ l₂ : PaxosLog κ} {index : ℕ} {entry : PaxosLogEntry}
    {entries : List (ℕ × PaxosLogEntry)} {calls₁ calls₂ : List (Call κ)}
    (h₁ : l.SetEntry index entry l₁ calls₁) (h₂ : l₁.SetEntries entries l₂ calls₂) :
    l.SetEntries ((index, entry) :: entries) l₂ (calls₁ ++ calls₂) := by
  constructor
  · exact h₂.wellFormed
  · intro i
    rw [h₂.log i, h₁.log, firstEntry_cons, KeyMap.insert_apply]
    by_cases hi : index = i
    · subst i
      cases l.log index <;> simp
    · have hne : i ≠ index := fun heq => hi heq.symm
      simp [hi, hne]
  · rw [h₂.callbacks, h₁.callbacks]
  · intro m m₂ hm hm₂
    obtain ⟨m₁, -, hm₁⟩ := h₁.wellFormed.nextAvailableIndex
    have hsub₁ : l.log.SubMap l₁.log := by
      rw [h₁.log]
      exact KeyMap.subMap_insert _ _ _
    have hsame : l₂.callsBetween m m₁ = l₁.callsBetween m m₁ := by
      apply callsBetween_congr h₂.callbacks
      intro i hi
      obtain ⟨e, he⟩ := Option.isSome_iff_exists.mp (hm₁.below i hi)
      rw [h₂.log i, he]
      rfl
    rw [h₁.calls m m₁ hm hm₁, h₂.calls m₁ m₂ hm₁ hm₂, ← hsame]
    exact callsBetween_append l₂ (hm.le_of_subMap hm₁ hsub₁)
      (hm₁.le_of_subMap hm₂ h₂.subMap)

theorem WellFormed.setEntries {l : PaxosLog κ} (h : l.WellFormed)
    (entries : List (ℕ × PaxosLogEntry)) (hindex : ∀ p ∈ entries, p.1 < 2 ^ 64 - 1) :
    ∃ l' calls, l.setEntries entries = .ok (l', calls) ∧ l.SetEntries entries l' calls := by
  induction entries generalizing l with
  | nil =>
      refine ⟨l, [], rfl, h, ?_, rfl, ?_⟩
      · simp
      · intro m m' hm hm'
        rw [hm.unique hm', callsBetween_self]
  | cons p entries ih =>
      obtain ⟨index, entry⟩ := p
      obtain ⟨l₁, calls₁, hset, hspec⟩ :=
        h.setEntry (hindex (index, entry) List.mem_cons_self) entry
      obtain ⟨l₂, calls₂, hsets, hspecs⟩ :=
        ih hspec.wellFormed fun p hp => hindex p (List.mem_cons_of_mem _ hp)
      refine ⟨l₂, calls₁ ++ calls₂, ?_, hspec.append hspecs⟩
      simp only [PaxosLog.setEntries, hset, bind, Except.bind, hsets]
      rfl

theorem mem_of_firstEntry {entries : List (ℕ × PaxosLogEntry)} {i : ℕ} {e : PaxosLogEntry}
    (h : firstEntry entries i = some e) : (i, e) ∈ entries := by
  obtain ⟨p, hp, rfl⟩ := Option.map_eq_some_iff.mp h
  have hi := List.find?_some hp
  have hmem := List.mem_of_find?_eq_some hp
  simp only [decide_eq_true_eq] at hi
  rw [← hi]
  exact hmem

/-- Entries that are set on a well-formed log are in the new log or were set before. -/
theorem WellFormed.mem_of_setEntries {l l' : PaxosLog κ} {entries : List (ℕ × PaxosLogEntry)}
    {calls : List (Call κ)} (h : l.WellFormed) (hindex : ∀ p ∈ entries, p.1 < 2 ^ 64 - 1)
    (hset : l.setEntries entries = .ok (l', calls)) :
    l'.WellFormed ∧
      ∀ i e, l'.log i = some e → l.log i = some e ∨ (i, e) ∈ entries := by
  obtain ⟨l₁, calls₁, hset₁, hspec⟩ := h.setEntries entries hindex
  rw [hset] at hset₁
  cases hset₁
  refine ⟨hspec.wellFormed, ?_⟩
  intro i e hi
  rw [hspec.log i, Option.or_eq_some_iff] at hi
  rcases hi with hold | ⟨-, hnew⟩
  · exact .inl hold
  · exact .inr (mem_of_firstEntry hnew)

/-- The calls a registered log makes up to its first gap are the calls that are due. -/
theorem callsBetween_eq_callsDue {registrations : List (EntryContentCase × κ)}
    {l : PaxosLog κ} (hcallbacks : l.callbacks = (register registrations).callbacks)
    {m : ℕ} (hgap : l.log.FirstGap m) :
    l.callsBetween 0 m = callsDue registrations l.log m := by
  simp only [callsBetween, callsDue, List.range_eq_range', Nat.sub_zero, List.flatMap]
  congr 1
  apply List.map_congr_left
  intro i hi
  rw [List.mem_range'_1] at hi
  obtain ⟨entry, hentry⟩ := Option.isSome_iff_exists.mp (hgap.below i (by omega))
  simp only [callsAt, hcallbacks, hentry, register_callbacks, Option.getD_some,
    Option.toList_some, List.map_map, List.map_cons, List.map_nil, List.flatten_cons,
    List.flatten_nil, List.append_nil]
  rfl

theorem callsDue_congr (registrations : List (EntryContentCase × κ))
    {log log' : KeyMap ℕ PaxosLogEntry} {m : ℕ} (h : ∀ i < m, log i = log' i) :
    callsDue registrations log m = callsDue registrations log' m := by
  simp only [callsDue, List.flatMap]
  congr 1
  apply List.map_congr_left
  intro i hi
  rw [h i (List.mem_range.mp hi)]

/-- Whatever the order of the calls, a registered log has called its callbacks for the
indices below its first gap, each with the first entry set there. -/
theorem setEntries_register (registrations : List (EntryContentCase × κ))
    (entries : List (ℕ × PaxosLogEntry)) (hindex : ∀ p ∈ entries, p.1 < 2 ^ 64 - 1) :
    ∃ l calls m, (register registrations).setEntries entries = .ok (l, calls) ∧
      l.nextAvailableIndex = .ok m ∧ l.log = firstEntry entries ∧ l.log.FirstGap m ∧
      calls = callsDue registrations l.log m := by
  obtain ⟨l, calls, hset, hspec⟩ :=
    (register_wellFormed registrations).setEntries entries hindex
  obtain ⟨m, hm, hgap⟩ := hspec.wellFormed.nextAvailableIndex
  have hgap₀ : (register registrations).log.FirstGap 0 := by
    constructor
    · simp
    · intro i hi
      omega
  refine ⟨l, calls, m, hset, hm, ?_, hgap, ?_⟩
  · funext i
    simpa using hspec.log i
  · rw [hspec.calls 0 m hgap₀ hgap]
    exact callsBetween_eq_callsDue hspec.callbacks hgap

/-- Callbacks are called once for each index below the next available one, by ascending
index and then in registration order, with the first entry set at the index. So two logs
that take their entries from one common log and have the same next available index have
made the same calls. -/
theorem callbacks_called_in_order (registrations : List (EntryContentCase × κ)) :
    (∀ entries : List (ℕ × PaxosLogEntry), (∀ p ∈ entries, p.1 < 2 ^ 64 - 1) →
      ∃ l calls m, (register registrations).setEntries entries = .ok (l, calls) ∧
        l.nextAvailableIndex = .ok m ∧ (∀ i < m, (firstEntry entries i).isSome) ∧
        calls = callsDue registrations (firstEntry entries) m) ∧
    (∀ entries entries' : List (ℕ × PaxosLogEntry),
      (∀ p ∈ entries, p.1 < 2 ^ 64 - 1) → (∀ p ∈ entries', p.1 < 2 ^ 64 - 1) →
      ∀ l l' calls calls' common,
        (register registrations).setEntries entries = .ok (l, calls) →
        (register registrations).setEntries entries' = .ok (l', calls') →
        l.log.SubMap common → l'.log.SubMap common →
        l.nextAvailableIndex = l'.nextAvailableIndex → calls = calls') := by
  constructor
  · intro entries hindex
    obtain ⟨l, calls, m, hset, hm, hlog, hgap, hcalls⟩ :=
      setEntries_register registrations entries hindex
    rw [hlog] at hgap hcalls
    exact ⟨l, calls, m, hset, hm, hgap.below, hcalls⟩
  · intro entries entries' hindex hindex' l l' calls calls' common hset hset' hsub hsub' heq
    obtain ⟨l₁, calls₁, m, hset₁, hm, -, hgap, hcalls⟩ :=
      setEntries_register registrations entries hindex
    obtain ⟨l₂, calls₂, m', hset₂, hm', -, hgap', hcalls'⟩ :=
      setEntries_register registrations entries' hindex'
    rw [hset] at hset₁
    rw [hset'] at hset₂
    cases hset₁
    cases hset₂
    rw [hm, hm'] at heq
    cases heq
    rw [hcalls, hcalls']
    apply callsDue_congr
    intro i hi
    obtain ⟨entry, hentry⟩ := Option.isSome_iff_exists.mp (hgap.below i hi)
    obtain ⟨entry', hentry'⟩ := Option.isSome_iff_exists.mp (hgap'.below i hi)
    have hcommon := hsub i entry hentry
    rw [hsub' i entry' hentry'] at hcommon
    rw [hentry, hentry', hcommon]

/-- The entry at index 1 arrives first, and waits for the one at index 0. -/
theorem callbacks_called_in_order_late :
    ∃ l l' calls calls',
      (register [(.kReconfigFinished, 7)]).setEntries
        [(1, .reconfigFinished), (0, .notSet)] = .ok (l, calls) ∧
      (register [(.kReconfigFinished, 7)]).setEntries
        [(0, .notSet), (1, .reconfigFinished), (0, .reconfigFinished)] = .ok (l', calls') ∧
      calls = callsDue [(.kReconfigFinished, 7)]
        (firstEntry [(1, .reconfigFinished), (0, .notSet)]) 2 ∧
      calls = calls' := by
  obtain ⟨hfired, hsame⟩ := callbacks_called_in_order [(.kReconfigFinished, 7)]
  obtain ⟨l, calls, m, hset, hm, -, hcalls⟩ :=
    hfired [(1, .reconfigFinished), (0, .notSet)] (by decide)
  obtain ⟨l', calls', m', hset', hm', -, -⟩ :=
    hfired [(0, .notSet), (1, .reconfigFinished), (0, .reconfigFinished)] (by decide)
  have hlog : l'.log = l.log := by
    cases hset
    cases hset'
    funext i
    match i with
    | 0 => rfl
    | 1 => rfl
    | i + 2 => rfl
  have hnext : l.nextAvailableIndex = .ok 2 ∧ l'.nextAvailableIndex = .ok 2 := by
    cases hset
    cases hset'
    exact ⟨rfl, rfl⟩
  obtain rfl : m = 2 := by
    rw [hnext.1] at hm
    exact (Except.ok.inj hm).symm
  refine ⟨l, l', calls, calls', hset, hset', hcalls, ?_⟩
  apply hsame _ _ (by decide) (by decide) l l' calls calls' l.log hset hset' (.refl _)
  · rw [hlog]
    exact .refl _
  · rw [hnext.1, hnext.2]

example :
    ((register [(.kReconfigFinished, 7)]).setEntries
      [(1, .reconfigFinished), (0, .notSet), (1, .notSet)]).toOption.map Prod.snd =
      some [⟨7, 1, .reconfigFinished⟩] := by
  decide

end UniversalDB.PaxosLog
