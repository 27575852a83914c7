import UniversalDB.Verification.Tablet.Log

/-! # The stores of the participants and the agreed log

A store is the replay of the applied entries as long as the reads that answer requests
leave it alone. -/

namespace UniversalDB.Tablet

variable {ι ε : Type} [DecidableEq ι] {trace : List (Event ι ε)} {s : State ι ε}

/-- The store is the result of replaying the entries below the next available index. -/
def IsReplay (s : State ι ε) (i : ι) : Prop :=
  ∃ m, (s.participants i).paxosLog.nextAvailableIndex = .ok m ∧
    replay (s.agreedLog.entries.take m) = .ok (s.participants i).kvstore

/-- The read finds no version, or its key has been accessed at or after its timestamp. -/
def Unmoved (kvstore : KVStore) (content : Read) : Prop :=
  let key := StringValue.value content.key
  let timestamp := UInt64Value.value content.timestamp
  (∀ v ∈ kvstore.versions key, timestamp < v.timestamp) ∨ kvstore.Sealed key timestamp

instance (kvstore : KVStore) (content : Read) : Decidable (Unmoved kvstore content) :=
  inferInstanceAs (Decidable (_ ∨ _))

theorem readLogged_of_unmoved {kvstore : KVStore} {content : Read}
    (h : Unmoved kvstore content) : (readLogged kvstore content).2 = kvstore := by
  apply KVStore.ext
  funext key
  rw [readLogged, KVStore.lookup_mvkvs]
  split
  · rename_i heq
    subst key
    cases hkey : kvstore.mvkvs (StringValue.value content.key) with
    | none => rfl
    | some entry =>
        rw [Option.map_some, Option.some.injEq]
        rcases h with hnone | hsealed
        · rw [KVStore.versions_of_some hkey] at hnone
          exact KVStore.accessed_eq_self_of_lt hnone
        · exact KVStore.accessed_eq_self ((KVStore.sealed_of_some hkey).mp hsealed)
  · rfl

/-- In a run whose reads outside the log leave the stores alone, every store is the replay
of the agreed log, and no callback throws. -/
theorem kvstore_eq_replay (h : (restricted ι ε Unmoved).Run trace s) (i : ι) :
    IsReplay s i ∧ (s.participants i).exception ≠ some pastError := by
  have hinv : Inv Eq trace s := by
    apply inv_of_run coupling_eq _ h
    rintro store _ content hunmoved rfl
    exact (readLogged_of_unmoved hunmoved).symm
  have hpart := hinv.participants i
  have hlive : (s.participants i).exception ≠ some pastError :=
    fun heq => hpart.safe heq safe_eq
  obtain ⟨k, hk⟩ := hpart.progress
  obtain ⟨hgap, -⟩ := hk.current hlive
  obtain ⟨store, hreplay, rfl⟩ := hk.store
  exact ⟨⟨k, hpart.wellFormed.nextAvailableIndex_eq.mpr hgap, hreplay⟩, hlive⟩

instance (s : State ι ε) (a : Action ι ε) :
    Decidable (∀ x ∈ answeredRead s a, Unmoved x.1 x.2) :=
  match answeredRead s a with
  | none => .isTrue (by simp)
  | some x => decidable_of_iff (Unmoved x.1 x.2) (by simp)

theorem kvstore_eq_replay_sample :
    ∃ (trace : List (Event (Fin 2) Unit)) (s : State (Fin 2) Unit),
      (restricted (Fin 2) Unit Unmoved).Run trace s ∧
        (s.participants 1).kvstore.readLat "k" = some 10 ∧
        IsReplay s 1 ∧ (s.participants 1).exception ≠ some pastError := by
  obtain ⟨trace, s, hrun, hlat⟩ := ((machine (Fin 2) Unit).restrict fun s a =>
    ∀ x ∈ answeredRead s a, Unmoved x.1 x.2).exists_run (sampleRun 0 1)
      (p := fun r => (r.2.participants 1).kvstore.readLat "k" = some 10) (by decide +kernel)
  have hrestricted := Machine.guarded_of_restrict hrun
  exact ⟨trace, s, hrestricted, hlat, kvstore_eq_replay hrestricted 1⟩

/-! ## A read that is answered after its key is created

The read of participant `p` is logged before the key exists. Participant `p` answers it when
it has applied the write, and its last access timestamp passes the one that the others
have. The write that participant `q` has checked then stops it. -/

def lateWrite : ClientRequest := ⟨"x", .WRITE, "d", "t", "k", some "u", some 7⟩

def answeredLate (p q : ι) : List (Action ι Unit) :=
  [.request p () sampleRead, .run p, .choose 0, .learn p 0, .learn q 0,
    .request q () sampleWrite, .run q, .choose 1, .learn p 1, .learn q 1, .run p]

def stoppedLate (p q : ι) : List (Action ι Unit) :=
  answeredLate p q ++ [.run q, .request q () lateWrite, .run q, .choose 2, .learn p 2]

theorem kvstore_ne_replay :
    (∃ (trace : List (Event (Fin 2) Unit)) (s : State (Fin 2) Unit),
      (machine (Fin 2) Unit).system.Run trace s ∧ (s.participants 0).exception = none ∧
        ¬ IsReplay s 0) ∧
      ∃ (trace : List (Event (Fin 2) Unit)) (s : State (Fin 2) Unit),
        (machine (Fin 2) Unit).system.Run trace s ∧
          (s.participants 0).exception = some pastError := by
  constructor
  · obtain ⟨trace, s, hrun, hnone, hindex, hlat, hlat'⟩ :=
      (machine (Fin 2) Unit).exists_run (answeredLate 0 1)
        (p := fun r => (r.2.participants 0).exception = none ∧
          (r.2.participants 0).paxosLog.nextAvailableIndex.toOption = some 2 ∧
          (r.2.participants 0).kvstore.readLat "k" = some 10 ∧
          ((replay (r.2.agreedLog.entries.take 2)).toOption.bind (·.readLat "k")) = some 5)
        (by decide +kernel)
    refine ⟨trace, s, hrun, hnone, ?_⟩
    rintro ⟨m, hm, hreplay⟩
    rw [hm] at hindex
    cases hindex
    rw [hreplay] at hlat'
    have heq : some 10 = some 5 := hlat.symm.trans hlat'
    cases heq
  · obtain ⟨trace, s, hrun, hpast⟩ := (machine (Fin 2) Unit).exists_run (stoppedLate 0 1)
      (p := fun r => (r.2.participants 0).exception = some pastError) (by decide +kernel)
    exact ⟨trace, s, hrun, hpast⟩

end UniversalDB.Tablet
