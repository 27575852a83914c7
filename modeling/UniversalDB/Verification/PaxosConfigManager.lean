import UniversalDB.Model.PaxosConfigManager
import UniversalDB.Verification.PaxosLog.Replay

/-! # The configuration timeline -/

namespace UniversalDB.PaxosConfigManager

open PaxosLog

/-! ## The timeline -/

@[simp] theorem new_configTimeline (index : ℕ) (slaves : List EndpointId) :
    (new index slaves).configTimeline = [⟨index, slaves⟩] := rfl

@[simp] theorem pushBack_configTimeline (m : PaxosConfigManager) (c : IndexAndConfig) :
    (m.pushBack c).configTimeline = m.configTimeline ++ [c] := rfl

@[simp] theorem pushBack_back (m : PaxosConfigManager) (c : IndexAndConfig) :
    (m.pushBack c).back = c := by
  simp [back]

/-! ## The search in a timeline -/

theorem searchBack_append (before after : List IndexAndConfig) (index : ℕ) :
    searchBack (before ++ after) index =
      (searchBack after index).or (searchBack before index) := by
  rw [searchBack, List.reverse_append, List.find?_append]
  rfl

theorem searchBack_split (configTimeline : List IndexAndConfig) (position index : ℕ) :
    searchBack configTimeline index =
      (searchBack (configTimeline.drop position) index).or
        (searchBack (configTimeline.take position) index) := by
  rw [← searchBack_append, List.take_append_drop]

theorem searchBack_concat (before : List IndexAndConfig) (c : IndexAndConfig) (index : ℕ) :
    searchBack (before ++ [c]) index =
      if c.index ≤ index then some c else searchBack before index := by
  rw [searchBack_append]
  by_cases hle : c.index ≤ index
  · simp [searchBack, hle]
  · simp [searchBack, hle]

theorem searchBack_eq_none {configTimeline : List IndexAndConfig} {index : ℕ}
    (h : ∀ c ∈ configTimeline, index < c.index) : searchBack configTimeline index = none := by
  rw [searchBack, List.find?_eq_none]
  intro c hc
  have hlt := h c (List.mem_reverse.mp hc)
  simpa using hlt

theorem of_searchBack {configTimeline : List IndexAndConfig} {index : ℕ} {c : IndexAndConfig}
    (h : searchBack configTimeline index = some c) : c ∈ configTimeline ∧ c.index ≤ index := by
  refine ⟨List.mem_reverse.mp (List.mem_of_find?_eq_some h), ?_⟩
  simpa using List.find?_some h

theorem searchBack_of_back_le {m : PaxosConfigManager} {index : ℕ} (h : m.back.index ≤ index) :
    searchBack m.configTimeline index = some m.back := by
  have hsplit : m.configTimeline.dropLast ++ [m.back] = m.configTimeline :=
    List.dropLast_append_getLast m.ne_nil
  rw [← hsplit, searchBack_concat, if_pos h]

/-- A negative position ends the loop at once. -/
theorem config_of_neg {m : PaxosConfigManager}
    (h : startPosition m.configTimeline.length < 0) (index : ℕ) :
    ∃ exception, m.config index = .error exception := by
  have hnil : (startPosition m.configTimeline.length + 1).toNat = 0 := by omega
  simp only [config, hnil, List.take_zero]
  exact ⟨_, rfl⟩

/-- Otherwise the configurations up to the position are searched. -/
theorem config_of_nonneg {m : PaxosConfigManager} {position : ℕ}
    (h : startPosition m.configTimeline.length = position) {index : ℕ} {c : IndexAndConfig}
    (hfound : searchBack (m.configTimeline.take (position + 1)) index = some c) :
    m.config index = .ok c.slaves := by
  have hnat : (startPosition m.configTimeline.length + 1).toNat = position + 1 := by omega
  simp only [config, hnat, hfound]

/-- The position is never behind the last configuration. -/
theorem startPosition_lt {length position : ℕ} (hpos : 0 < length)
    (h : startPosition length = position) : position < length := by
  have hcast : ((length - 1 : ℕ) : ℤ) = (length : ℤ) - 1 := by omega
  rw [startPosition, ← hcast] at h
  by_cases hlow : ((length - 1 : ℕ) : ℤ) % (2 ^ 32 : ℕ) < ((2 ^ 32 : ℕ) + 1) / 2
  · rw [Int.bmod_eq_emod_of_lt hlow] at h
    omega
  · rw [Int.bmod_neg _ _ (by omega)] at h
    omega

theorem startPosition_of_few {length : ℕ} (hpos : 0 < length) (hlength : length ≤ 2 ^ 31) :
    startPosition length = (length - 1 : ℕ) := by
  rw [startPosition, Int.bmod_eq_of_le (by omega) (by omega)]
  omega

/-- Above the largest `int` the position is negative. -/
theorem startPosition_of_many {length : ℕ} (hlength : 2 ^ 31 < length)
    (hbound : length ≤ 2 ^ 32) : startPosition length < 0 := by
  have hcast : ((length - 1 : ℕ) : ℤ) = (length : ℤ) - 1 := by omega
  rw [startPosition, Int.bmod_neg _ _ (by omega)]
  omega

/-! ## What the log dictates -/

def isReconfigStarted : PaxosLogEntry → Bool
  | .reconfigStarted _ => true
  | _ => false

/-- The slaves of the last `ReconfigStarted` entry below an index, or the initial ones. -/
def governing (slaves : List EndpointId) (log : KeyMap ℕ PaxosLogEntry) :
    ℕ → List EndpointId
  | 0 => slaves
  | index + 1 =>
      match log index with
      | some (.reconfigStarted reconfigMessage) => newSlaves reconfigMessage
      | _ => governing slaves log index

/-- The configurations that the entries below an index list, the initial one first. -/
def configurations (slaves : List EndpointId) (log : KeyMap ℕ PaxosLogEntry) :
    ℕ → List (List EndpointId)
  | 0 => [slaves]
  | index + 1 =>
      match log index with
      | some (.reconfigStarted reconfigMessage) =>
          configurations slaves log index ++ [newSlaves reconfigMessage]
      | _ => configurations slaves log index

theorem governing_congr {slaves : List EndpointId} {log log' : KeyMap ℕ PaxosLogEntry}
    {index : ℕ} (h : ∀ i < index, log i = log' i) :
    governing slaves log index = governing slaves log' index := by
  induction index with
  | zero => rfl
  | succ index ih =>
      have hrest := ih fun i hi => h i (by omega)
      simp only [governing, h index (Nat.lt_succ_self index), hrest]

/-- A reconfiguration at index 0, or next to another one. -/
def Adjacent (log : KeyMap ℕ PaxosLogEntry) (index : ℕ) : Prop :=
  index = 0 ∨ ∃ reconfigMessage, log (index - 1) = some (.reconfigStarted reconfigMessage)

/-- No reconfiguration below `m` is at index 0 or next to another one. -/
def SpacedBelow (log : KeyMap ℕ PaxosLogEntry) (m : ℕ) : Prop :=
  ∀ index < m, ∀ reconfigMessage, log index = some (.reconfigStarted reconfigMessage) →
    ¬ Adjacent log index

theorem SpacedBelow.succ_iff {log : KeyMap ℕ PaxosLogEntry} {m : ℕ} :
    SpacedBelow log (m + 1) ↔ SpacedBelow log m ∧
      ∀ reconfigMessage, log m = some (.reconfigStarted reconfigMessage) →
        ¬ Adjacent log m := by
  constructor
  · intro h
    exact ⟨fun index hindex => h index (by omega), h m (Nat.lt_succ_self m)⟩
  · rintro ⟨hbelow, hm⟩ index hindex
    rcases Nat.lt_succ_iff_lt_or_eq.mp hindex with hlt | rfl
    · exact hbelow index hlt
    · exact hm

/-- The timeline of a manager that has seen the entries below `m`. Its last index is `m`
when the entry before was a reconfiguration. -/
structure TimelineInv (slaves : List EndpointId) (log : KeyMap ℕ PaxosLogEntry) (m : ℕ)
    (manager : PaxosConfigManager) : Prop where
  ascending : manager.configTimeline.Pairwise fun c d => c.index < d.index
  bound : ∀ c ∈ manager.configTimeline, c.index ≤ m
  back_lt_iff : manager.back.index < m ↔ ¬ Adjacent log m
  found : ∀ i ≤ m, (searchBack manager.configTimeline i).map IndexAndConfig.slaves =
    some (governing slaves log i)
  slaves : manager.configTimeline.map IndexAndConfig.slaves = configurations slaves log m
  /-- There is no configuration for index 1. -/
  length_le : manager.configTimeline.length ≤ max 1 m

section Steps

variable {slaves : List EndpointId} {log : KeyMap ℕ PaxosLogEntry} {m : ℕ}
  {manager : PaxosConfigManager}

theorem back_mem (manager : PaxosConfigManager) :
    manager.back ∈ manager.configTimeline :=
  List.getLast_mem _

theorem timelineInv_new (slaves : List EndpointId) (log : KeyMap ℕ PaxosLogEntry) :
    TimelineInv slaves log 0 (new 0 slaves) := by
  constructor
  · simp
  · simp
  · simp [Adjacent]
  · intro i hi
    obtain rfl : i = 0 := by omega
    rfl
  · rfl
  · simp

/-- An entry of another kind leaves the timeline as it is. -/
theorem TimelineInv.skip (h : TimelineInv slaves log m manager)
    (hother : ∀ reconfigMessage, log m ≠ some (.reconfigStarted reconfigMessage)) :
    TimelineInv slaves log (m + 1) manager := by
  have hback := h.bound _ (back_mem manager)
  constructor
  · exact h.ascending
  · intro c hc
    exact (h.bound c hc).trans (Nat.le_succ m)
  · have hnot : ¬ Adjacent log (m + 1) := by
      rintro (hzero | ⟨reconfigMessage, hentry⟩)
      · omega
      · exact hother reconfigMessage hentry
    simp only [hnot, not_false_eq_true, iff_true]
    omega
  · intro i hi
    rcases Nat.lt_succ_iff_lt_or_eq.mp (Nat.lt_succ_of_le hi) with hlt | rfl
    · exact h.found i (by omega)
    · have hgoverning : governing slaves log (m + 1) = governing slaves log m := by
        simp only [governing]
      have hm := h.found m (Nat.le_refl m)
      rw [searchBack_of_back_le hback] at hm
      rw [searchBack_of_back_le (by omega), hgoverning, hm]
  · have hconfigurations : configurations slaves log (m + 1) = configurations slaves log m := by
      simp only [configurations]
    rw [hconfigurations]
    exact h.slaves
  · exact h.length_le.trans (by omega)

/-- A reconfiguration extends the timeline by the next index. -/
theorem TimelineInv.push (h : TimelineInv slaves log m manager) (hpos : 0 < m)
    {reconfigMessage : ReconfigStarted}
    (hentry : log m = some (.reconfigStarted reconfigMessage)) :
    TimelineInv slaves log (m + 1)
      (manager.pushBack ⟨m + 1, newSlaves reconfigMessage⟩) := by
  constructor
  · rw [pushBack_configTimeline, List.pairwise_append]
    refine ⟨h.ascending, List.pairwise_singleton _ _, ?_⟩
    intro c hc d hd
    cases List.mem_singleton.mp hd
    exact Nat.lt_succ_of_le (h.bound c hc)
  · intro c hc
    rw [pushBack_configTimeline, List.mem_append, List.mem_singleton] at hc
    rcases hc with hold | rfl
    · exact (h.bound c hold).trans (Nat.le_succ m)
    · exact Nat.le_refl _
  · have hadjacent : Adjacent log (m + 1) := .inr ⟨reconfigMessage, hentry⟩
    simp [hadjacent]
  · intro i hi
    rw [pushBack_configTimeline, searchBack_concat]
    split
    · rename_i hle
      obtain rfl : i = m + 1 := Nat.le_antisymm hi hle
      simp only [governing, hentry, Option.map_some]
    · rename_i hlt
      exact h.found i (by simp only at hlt; omega)
  · simp only [pushBack_configTimeline, List.map_append, h.slaves, configurations, hentry,
      List.map_cons, List.map_nil]
  · have hlength := h.length_le
    simp only [pushBack_configTimeline, List.length_append, List.length_singleton]
    omega

theorem callback_eq (manager : PaxosConfigManager) (hm : m < 2 ^ 64 - 1) (entry : PaxosLogEntry) :
    manager.callback m entry =
      if manager.back.index < m then
        .ok (manager.pushBack ⟨m + 1, newSlaves entry.getReconfigStarted⟩)
      else .error ⟨"Index should always be ascending."⟩ := by
  have hmod : (m + 1) % 2 ^ 64 = m + 1 := Nat.mod_eq_of_lt (by omega)
  by_cases hlt : manager.back.index < m
  · simp only [callback, universalAssert, hmod, hlt, decide_true, if_true]
    rfl
  · simp only [callback, universalAssert, hlt, decide_false, if_false]
    rfl

/-- The calls for the entry behind the ones that have been seen. The assertion of the
callback fails exactly when the entry is an adjacent reconfiguration. -/
theorem TimelineInv.next (h : TimelineInv slaves log m manager) (hm : m < 2 ^ 64 - 1)
    {entry : PaxosLogEntry} (hentry : log m = some entry) :
    ((∀ reconfigMessage, log m = some (.reconfigStarted reconfigMessage) →
        ¬ Adjacent log m) ∧
      ∃ manager', runCalls run manager (callsFor [(.kReconfigStarted, ())] m entry) =
        .ok (manager', []) ∧ TimelineInv slaves log (m + 1) manager') ∨
    ((∃ reconfigMessage, log m = some (.reconfigStarted reconfigMessage) ∧
        Adjacent log m) ∧
      ∃ exception, runCalls run manager (callsFor [(.kReconfigStarted, ())] m entry) =
        .error exception) := by
  cases entry with
  | reconfigStarted reconfigMessage =>
      have hcalls : callsFor [(.kReconfigStarted, ())] m
          (.reconfigStarted reconfigMessage) = [⟨(), m, .reconfigStarted reconfigMessage⟩] :=
        rfl
      have hcallback := callback_eq manager hm (.reconfigStarted reconfigMessage)
      rw [hcalls, runCalls_singleton, run, hcallback]
      by_cases hadjacent : Adjacent log m
      · right
        rw [if_neg fun hlt => h.back_lt_iff.mp hlt hadjacent]
        exact ⟨⟨reconfigMessage, hentry, hadjacent⟩, _, rfl⟩
      · left
        have hpos : 0 < m := Nat.pos_of_ne_zero fun hzero => hadjacent (.inl hzero)
        rw [if_pos (h.back_lt_iff.mpr hadjacent)]
        exact ⟨fun _ _ => hadjacent, _, rfl, h.push hpos hentry⟩
  | _ =>
      left
      have hother : ∀ reconfigMessage, log m ≠ some (.reconfigStarted reconfigMessage) := by
        intro reconfigMessage hreconfig
        rw [hentry] at hreconfig
        cases hreconfig
      exact ⟨fun reconfigMessage hreconfig => absurd hreconfig (hother reconfigMessage),
        manager, rfl, h.skip hother⟩

/-- A manager can run all calls up to the first gap exactly when the reconfigurations
below it are spaced. -/
theorem timeline_of_log (slaves : List EndpointId) {log : KeyMap ℕ PaxosLogEntry}
    (hindex : ∀ i, (log i).isSome → i < 2 ^ 64 - 1) {m : ℕ}
    (hbelow : ∀ i < m, (log i).isSome) :
    (SpacedBelow log m ∧ ∃ manager,
      runCalls run (new 0 slaves) (callsDue [(.kReconfigStarted, ())] log m) =
        .ok (manager, []) ∧ TimelineInv slaves log m manager) ∨
    (¬ SpacedBelow log m ∧ ∃ exception,
      runCalls run (new 0 slaves) (callsDue [(.kReconfigStarted, ())] log m) =
        .error exception) := by
  induction m with
  | zero =>
      left
      refine ⟨?_, new 0 slaves, rfl, timelineInv_new slaves log⟩
      intro index hlt
      omega
  | succ m ih =>
      obtain ⟨entry, hentry⟩ := Option.isSome_iff_exists.mp (hbelow m (Nat.lt_succ_self m))
      have hm := hindex m (by rw [hentry]; rfl)
      rw [callsDue_succ hentry, SpacedBelow.succ_iff]
      rcases ih fun i hi => hbelow i (by omega) with
        ⟨hspaced, manager, hrun, hinv⟩ | ⟨hspaced, exception, hrun⟩
      · rcases hinv.next hm hentry with
          ⟨hlast, manager', hcalls, hinv'⟩ | ⟨⟨reconfigMessage, hlast⟩, exception, hcalls⟩
        · left
          refine ⟨⟨hspaced, hlast⟩, manager', ?_, hinv'⟩
          rw [runCalls_append_ok _ hrun, hcalls]
          rfl
        · right
          refine ⟨fun h => h.2 reconfigMessage hlast.1 hlast.2, exception, ?_⟩
          rw [runCalls_append_ok _ hrun, hcalls]
          rfl
      · right
        exact ⟨fun h => hspaced h.1, exception, runCalls_append_error _ hrun⟩

end Steps

/-! ## Reading the timeline -/

/-- The loop of `config` starts at a position, and the configurations behind this position
list no other slaves. -/
def ReadsBack (configurations : List (List EndpointId)) : Prop :=
  ∃ position : ℕ, startPosition configurations.length = position ∧
    ∀ slaves ∈ configurations.drop position, configurations[position]? = some slaves

theorem readsBack_of_few {configurations : List (List EndpointId)}
    (hne : configurations ≠ []) (hlength : configurations.length ≤ 2 ^ 31) :
    ReadsBack configurations := by
  have hpos : 0 < configurations.length := List.length_pos_iff.mpr hne
  refine ⟨configurations.length - 1, startPosition_of_few hpos hlength, ?_⟩
  intro slaves hmem
  have hlast : configurations.length - 1 < configurations.length := by omega
  rw [List.drop_eq_getElem_cons hlast, Nat.sub_add_cancel hpos, List.drop_length,
    List.mem_singleton] at hmem
  rw [hmem, List.getElem?_eq_getElem hlast]

section Reading

variable {slaves : List EndpointId} {log : KeyMap ℕ PaxosLogEntry} {m : ℕ}
  {manager : PaxosConfigManager}

/-- What is found up to a position, for an index behind the configuration there. -/
theorem searchBack_take {configTimeline : List IndexAndConfig} {position : ℕ}
    (hlt : position < configTimeline.length) {i : ℕ}
    (hle : configTimeline[position].index ≤ i) :
    searchBack (configTimeline.take (position + 1)) i = some configTimeline[position] := by
  rw [List.take_succ_eq_append_getElem hlt, searchBack_concat, if_pos hle]

/-- An ascending timeline finds each of its configurations at its own index. -/
theorem searchBack_self {configTimeline : List IndexAndConfig}
    (hascending : configTimeline.Pairwise fun c d => c.index < d.index) {j : ℕ}
    (hlt : j < configTimeline.length) :
    searchBack configTimeline configTimeline[j].index = some configTimeline[j] := by
  have hbehind : searchBack (configTimeline.drop (j + 1)) configTimeline[j].index = none := by
    apply searchBack_eq_none
    intro c hc
    obtain ⟨k, hk, rfl⟩ := List.mem_drop_iff_getElem.mp hc
    exact List.pairwise_iff_getElem.mp hascending j (j + 1 + k) hlt (by omega) (by omega)
  rw [searchBack_split configTimeline (j + 1), hbehind, Option.none_or,
    searchBack_take hlt (Nat.le_refl _)]

/-- A timeline that reads back gives the governing configuration: what is found behind the
start position lists the slaves that are listed there. -/
theorem TimelineInv.config_of_readsBack (h : TimelineInv slaves log m manager)
    (hreads : ReadsBack (manager.configTimeline.map IndexAndConfig.slaves)) {i : ℕ}
    (hi : i ≤ m) : manager.config i = .ok (governing slaves log i) := by
  obtain ⟨position, hstart, hsame⟩ := hreads
  rw [List.length_map] at hstart
  have hlt := startPosition_lt (List.length_pos_iff.mpr manager.ne_nil) hstart
  obtain ⟨c, hc, hslaves⟩ := Option.map_eq_some_iff.mp (h.found i hi)
  rw [← hslaves]
  rw [searchBack_split _ (position + 1)] at hc
  cases hbehind : searchBack (manager.configTimeline.drop (position + 1)) i with
  | none =>
      rw [hbehind, Option.none_or] at hc
      exact config_of_nonneg hstart hc
  | some d =>
      rw [hbehind, Option.some_or, Option.some.injEq] at hc
      subst d
      obtain ⟨hmem, hle⟩ := of_searchBack hbehind
      obtain ⟨k, hk, rfl⟩ := List.mem_drop_iff_getElem.mp hmem
      have hascending := List.pairwise_iff_getElem.mp h.ascending position (position + 1 + k)
        hlt (by omega) (by omega)
      have hsome := hsame _ (List.mem_drop_iff_getElem.mpr ⟨k + 1, by
        rw [List.length_map]
        omega, rfl⟩)
      simp only [List.getElem?_map, List.getElem?_eq_getElem hlt, Option.map_some,
        List.getElem_map, Option.some.injEq] at hsome
      rw [config_of_nonneg hstart (searchBack_take hlt (by omega)), hsome]
      simp only [Nat.add_assoc, Nat.add_comm 1]

/-- Each configuration from the start position on is asked for at its own index. -/
theorem TimelineInv.readsBack_of_config (h : TimelineInv slaves log m manager)
    (hconfig : ∀ i ≤ m, manager.config i = .ok (governing slaves log i)) :
    ReadsBack (manager.configTimeline.map IndexAndConfig.slaves) := by
  rcases lt_or_ge (startPosition manager.configTimeline.length) 0 with hneg | hnonneg
  · obtain ⟨exception, hthrown⟩ := config_of_neg hneg 0
    rw [hconfig 0 (Nat.zero_le m)] at hthrown
    cases hthrown
  · obtain ⟨position, hstart⟩ := Int.eq_ofNat_of_zero_le hnonneg
    have hlt := startPosition_lt (List.length_pos_iff.mpr manager.ne_nil) hstart
    refine ⟨position, by rw [List.length_map]; exact hstart, ?_⟩
    intro slaves' hmem
    obtain ⟨k, hk, rfl⟩ := List.mem_drop_iff_getElem.mp hmem
    rw [List.length_map, Nat.add_comm] at hk
    have hle : manager.configTimeline[position].index ≤
        manager.configTimeline[position + k].index := by
      rcases Nat.eq_zero_or_pos k with rfl | hpos
      · exact Nat.le_refl _
      · exact (List.pairwise_iff_getElem.mp h.ascending position (position + k) hlt hk
          (by omega)).le
    have hbound := h.bound _ (List.getElem_mem hk)
    have hgoverning := h.found _ hbound
    rw [searchBack_self h.ascending hk, Option.map_some, Option.some.injEq] at hgoverning
    have hread := hconfig _ hbound
    rw [config_of_nonneg hstart (searchBack_take hlt hle), ← hgoverning] at hread
    simp only [List.getElem?_map, List.getElem?_eq_getElem hlt, Option.map_some,
      List.getElem_map]
    rw [Except.ok.inj hread]

/-- In a log whose indices have 32 bits, either the configuration that the entries below `m`
dictate is read, even for an index behind `m`, or the start position is negative. -/
theorem TimelineInv.config_cases (h : TimelineInv slaves log m manager) (hm : m ≤ 2 ^ 32)
    (i : ℕ) : manager.config i = .ok (governing slaves log (min i m)) ∨
      ∃ exception, manager.config i = .error exception := by
  have hpos : 0 < manager.configTimeline.length := List.length_pos_iff.mpr manager.ne_nil
  have hlength := h.length_le
  rcases Nat.lt_or_ge (2 ^ 31) manager.configTimeline.length with hmany | hfew
  · exact .inr (config_of_neg (startPosition_of_many hmany (by omega)) i)
  · left
    have hfound : (searchBack manager.configTimeline i).map IndexAndConfig.slaves =
        some (governing slaves log (min i m)) := by
      rcases Nat.le_total i m with hi | hi
      · rw [Nat.min_eq_left hi]
        exact h.found i hi
      · have hback := h.bound _ (back_mem manager)
        rw [Nat.min_eq_right hi, ← h.found m le_rfl, searchBack_of_back_le hback,
          searchBack_of_back_le (hback.trans hi)]
    obtain ⟨c, hc, hslaves⟩ := Option.map_eq_some_iff.mp hfound
    rw [← hslaves]
    apply config_of_nonneg (startPosition_of_few hpos hfew)
    rw [Nat.sub_add_cancel hpos, List.take_length]
    exact hc

/-- The governing configurations are read exactly when the timeline reads back. -/
theorem TimelineInv.config_iff (h : TimelineInv slaves log m manager) :
    (∀ i ≤ m, manager.config i = .ok (governing slaves log i)) ↔
      ReadsBack (configurations slaves log m) := by
  rw [← h.slaves]
  exact ⟨h.readsBack_of_config, fun hreads i hi => h.config_of_readsBack hreads hi⟩

end Reading

/-! ## Logs -/

/-- Among the entries in front of the first gap no reconfiguration is at index 0 or next
to another one. -/
def Spaced (log : KeyMap ℕ PaxosLogEntry) : Prop :=
  ∀ index, (∀ i ≤ index, (log i).isSome) → ∀ reconfigMessage,
    log index = some (.reconfigStarted reconfigMessage) → ¬ Adjacent log index

theorem spaced_iff {log : KeyMap ℕ PaxosLogEntry} {m : ℕ} (hgap : log.FirstGap m) :
    Spaced log ↔ SpacedBelow log m := by
  constructor
  · intro h index hindex
    exact h index fun i hi => hgap.below i (by omega)
  · intro h index hindex
    apply h index
    by_contra hle
    have hsome := hindex m (by omega)
    rw [hgap.unset] at hsome
    cases hsome

theorem Spaced.of_subMap {log log' : KeyMap ℕ PaxosLogEntry} (h : Spaced log')
    (hsub : log.SubMap log') : Spaced log := by
  intro index hindex reconfigMessage hentry hadjacent
  have hsome : ∀ i ≤ index, (log' i).isSome := by
    intro i hi
    obtain ⟨e, he⟩ := Option.isSome_iff_exists.mp (hindex i hi)
    rw [hsub i e he]
    rfl
  apply h index hsome reconfigMessage (hsub index _ hentry)
  rcases hadjacent with hzero | ⟨reconfigMessage', hprevious⟩
  · exact .inl hzero
  · exact .inr ⟨reconfigMessage', hsub _ _ hprevious⟩

/-- What holds of a log whose manager has not thrown. -/
abbrev AppliedTo (slaves : List EndpointId) (c : ConfiguredLog) (m : ℕ) : Prop :=
  Applied run [(.kReconfigStarted, ())] (new 0 slaves) c.paxosLog c.paxosConfigManager m []

theorem appliedTo_new (slaves : List EndpointId) :
    AppliedTo slaves (ConfiguredLog.new slaves) 0 :=
  applied_register

section Entries

variable {slaves : List EndpointId} {c c' : ConfiguredLog} {m : ℕ}

/-- A manager that has not thrown has seen spaced reconfigurations only, and its timeline
is the one the log dictates. -/
theorem AppliedTo.timeline (h : AppliedTo slaves c m)
    (hindex : ∀ i, (c.paxosLog.log i).isSome → i < 2 ^ 64 - 1) :
    Spaced c.paxosLog.log ∧
      TimelineInv slaves c.paxosLog.log m c.paxosConfigManager := by
  have hreplayed := h.replayed
  rcases timeline_of_log slaves hindex h.gap.below with
    ⟨hspaced, manager, hrun, hinv⟩ | ⟨-, exception, hrun⟩
  · rw [hreplayed] at hrun
    cases hrun
    exact ⟨(spaced_iff h.gap).mpr hspaced, hinv⟩
  · rw [hreplayed] at hrun
    cases hrun

/-- Setting an entry throws only if reconfigurations are adjacent. -/
theorem AppliedTo.setEntry (h : AppliedTo slaves c m) {index : ℕ}
    (hindex : index < 2 ^ 64 - 1) (entry : PaxosLogEntry)
    (hbound : ∀ i, (c.paxosLog.log i).isSome → i < 2 ^ 64 - 1) :
    (∃ c' m', c.setEntry index entry = .ok c' ∧ AppliedTo slaves c' m' ∧
      c'.paxosLog.log = c.paxosLog.log.insert index entry) ∨
    ((∃ exception, c.setEntry index entry = .error exception) ∧
      ¬ Spaced (c.paxosLog.log.insert index entry)) := by
  obtain ⟨paxosLog, calls, m', hset, hlog, hgap', hreplay, happlied⟩ :=
    Applied.setEntry h hindex entry
  cases hcalls : runCalls run c.paxosConfigManager calls with
  | ok r =>
      obtain ⟨manager, sent⟩ := r
      obtain rfl : sent = [] := by
        cases sent with
        | nil => rfl
        | cons e sent => exact e.elim
      left
      refine ⟨⟨paxosLog, manager⟩, m', ?_, happlied manager [] hcalls, hlog⟩
      simp only [ConfiguredLog.setEntry, hset, hcalls, bind, Except.bind]
      rfl
  | error exception =>
      right
      refine ⟨⟨exception, ?_⟩, ?_⟩
      · simp only [ConfiguredLog.setEntry, hset, hcalls, bind, Except.bind]
      · intro hspaced
        have hbound' : ∀ i, (paxosLog.log i).isSome → i < 2 ^ 64 - 1 := by
          intro i hi
          rw [hlog, KeyMap.insert_apply] at hi
          split at hi
          · omega
          · exact hbound i hi
        rw [← hlog] at hspaced
        rcases timeline_of_log slaves hbound' hgap'.below with
          ⟨-, manager, hrun, -⟩ | ⟨hnot, -⟩
        · rw [hreplay, hcalls] at hrun
          cases hrun
        · exact hnot ((spaced_iff hgap').mp hspaced)

theorem AppliedTo.setEntries (entries : List (ℕ × PaxosLogEntry))
    (hentries : ∀ p ∈ entries, p.1 < 2 ^ 64 - 1) :
    ∀ {c : ConfiguredLog} {m : ℕ}, AppliedTo slaves c m →
      (∀ i, (c.paxosLog.log i).isSome → i < 2 ^ 64 - 1) →
      (∃ c' m', c.setEntries entries = .ok c' ∧ AppliedTo slaves c' m' ∧
        ∀ i, c'.paxosLog.log i = (c.paxosLog.log i).or (firstEntry entries i)) ∨
      ((∃ exception, c.setEntries entries = .error exception) ∧
        ¬ Spaced fun i => (c.paxosLog.log i).or (firstEntry entries i)) := by
  induction entries with
  | nil =>
      intro c m h hbound
      exact .inl ⟨c, m, rfl, h, by simp⟩
  | cons p entries ih =>
      obtain ⟨index, entry⟩ := p
      intro c m h hbound
      have hindex : index < 2 ^ 64 - 1 := hentries _ List.mem_cons_self
      have hlog : ∀ i, ((c.paxosLog.log.insert index entry) i).or (firstEntry entries i) =
          (c.paxosLog.log i).or (firstEntry ((index, entry) :: entries) i) := by
        intro i
        rw [firstEntry_cons, KeyMap.insert_apply]
        by_cases hi : index = i
        · subst i
          cases c.paxosLog.log index <;> simp
        · have hne : i ≠ index := fun heq => hi heq.symm
          simp [hi, hne]
      rcases h.setEntry hindex entry hbound with
        ⟨c₁, m₁, hset, happlied, hlog₁⟩ | ⟨⟨exception, hset⟩, hspaced⟩
      · have hbound₁ : ∀ i, (c₁.paxosLog.log i).isSome → i < 2 ^ 64 - 1 := by
          intro i hi
          rw [hlog₁, KeyMap.insert_apply] at hi
          split at hi
          · omega
          · exact hbound i hi
        simp only [ConfiguredLog.setEntries, hset, bind, Except.bind]
        simp only [← hlog, ← hlog₁]
        exact ih (fun p hp => hentries p (List.mem_cons_of_mem _ hp)) happlied hbound₁
      · right
        refine ⟨⟨exception, ?_⟩, ?_⟩
        · simp only [ConfiguredLog.setEntries, hset, bind, Except.bind]
        · intro hall
          apply hspaced
          apply hall.of_subMap
          intro i e he
          have hi := hlog i
          rw [he] at hi
          exact hi.symm

/-- After a sequence of `setEntry` calls the assertion has not failed, the timeline is
ascending, and every index up to the next available one has the configuration the log
dictates. -/
def Governed (slaves : List EndpointId) (entries : List (ℕ × PaxosLogEntry)) : Prop :=
  ∃ c m, (ConfiguredLog.new slaves).setEntries entries = .ok c ∧
    c.paxosLog.nextAvailableIndex = .ok m ∧
    (c.paxosConfigManager.configTimeline.Pairwise fun a b => a.index < b.index) ∧
    ∀ i ≤ m, c.paxosConfigManager.config i = .ok (governing slaves (firstEntry entries) i)

/-- The timeline follows the log, whatever the order of the calls, exactly when no
reconfiguration is at index 0 or next to another one and the configurations in front of the
first gap read back. -/
theorem governed_iff (slaves : List EndpointId) (entries : List (ℕ × PaxosLogEntry))
    (hentries : ∀ p ∈ entries, p.1 < 2 ^ 64 - 1) :
    Governed slaves entries ↔ Spaced (firstEntry entries) ∧
      ∃ m, KeyMap.FirstGap (firstEntry entries) m ∧
        ReadsBack (configurations slaves (firstEntry entries) m) := by
  have hnew : ∀ i, (ConfiguredLog.new slaves).paxosLog.log i = none := fun _ => rfl
  rcases AppliedTo.setEntries entries hentries (appliedTo_new slaves) (by simp [hnew]) with
    ⟨c, m, hset, happlied, hlog⟩ | ⟨⟨exception, hset⟩, hspaced⟩
  · simp only [hnew, Option.none_or] at hlog
    have hlog : c.paxosLog.log = firstEntry entries := funext hlog
    have hbound : ∀ i, (c.paxosLog.log i).isSome → i < 2 ^ 64 - 1 := by
      intro i hi
      rw [hlog] at hi
      obtain ⟨e, he⟩ := Option.isSome_iff_exists.mp hi
      exact hentries _ (mem_of_firstEntry he)
    obtain ⟨hspaced, hinv⟩ := happlied.timeline hbound
    have hgap := happlied.gap
    have hnext := happlied.nextAvailableIndex
    rw [hlog] at hspaced hinv hgap
    constructor
    · rintro ⟨c', m', hset', hnext', -, hconfig⟩
      rw [hset] at hset'
      cases hset'
      rw [hnext] at hnext'
      cases hnext'
      exact ⟨hspaced, m, hgap, hinv.config_iff.mp hconfig⟩
    · rintro ⟨-, m', hgap', hreads⟩
      obtain rfl := hgap.unique hgap'
      exact ⟨c, m, hset, hnext, hinv.ascending, hinv.config_iff.mpr hreads⟩
  · simp only [hnew, Option.none_or] at hspaced
    constructor
    · rintro ⟨c, m, hset', -⟩
      rw [hset] at hset'
      cases hset'
    · exact fun h => absurd h.1 hspaced

/-- A reconfiguration behind another entry. -/
theorem governed_iff_second :
    Governed [⟨"a", 0⟩] [(1, .reconfigStarted ⟨[⟨"b"⟩]⟩), (0, .notSet)] := by
  rw [governed_iff _ _ (by decide)]
  constructor
  · intro index hindex reconfigMessage hentry hadjacent
    obtain rfl : index = 1 := by
      simp only [firstEntry_cons] at hentry
      split at hentry
      · omega
      · split at hentry <;> cases hentry
    rcases hadjacent with hzero | ⟨reconfigMessage', hprevious⟩
    · cases hzero
    · cases hprevious
  · exact ⟨2, ⟨rfl, by decide⟩, readsBack_of_few (by decide) (by decide)⟩

/-- A reconfiguration at index 0 fails the assertion. -/
theorem not_governed_first :
    ¬ ∀ (slaves : List EndpointId) (entries : List (ℕ × PaxosLogEntry)),
      (∀ p ∈ entries, p.1 < 2 ^ 64 - 1) → Governed slaves entries := by
  intro h
  obtain ⟨c, m, hset, -⟩ := h [⟨"a", 0⟩] [(0, .reconfigStarted ⟨[⟨"b"⟩]⟩)] (by decide)
  have hthrown : (ConfiguredLog.new [⟨"a", 0⟩]).setEntries
      [(0, .reconfigStarted ⟨[⟨"b"⟩]⟩)] =
        .error ⟨"Index should always be ascending."⟩ := rfl
  rw [hthrown] at hset
  cases hset

end Entries

end UniversalDB.PaxosConfigManager
