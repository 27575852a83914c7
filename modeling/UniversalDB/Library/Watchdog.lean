import Mathlib.Data.Nat.Basic
import Mathlib.Order.Lattice
import Mathlib.Order.MinMax

/-! # Watchdogs

A watchdog counts periods of its own clock since the last sign of life of what it watches,
which it gives up when the count reaches a limit. It counts when its timer is due or later,
and then sets the timer to a period from there. -/

namespace Watchdog

variable {period late limit now now' due count start sign lapse : ℕ}

/-! ## What is alive -/

/-- The limit is not reached up to the time of a sign of life, however early the timer
runs. -/
def Fed (period limit now due count sign : ℕ) : Prop :=
  ∃ spare, limit = count + spare + 1 ∧ sign < max due now + spare * period

theorem Fed.count_lt (h : Fed period limit now due count sign) : count < limit := by
  obtain ⟨spare, rfl, -⟩ := h
  omega

/-- A count of zero. -/
theorem fed_zero (hlimit : 0 < limit) (hsign : sign < now + (limit - 1) * period) :
    Fed period limit now due 0 sign :=
  ⟨limit - 1, by omega, hsign.trans_le (Nat.add_le_add_right (le_max_right due now) _)⟩

theorem Fed.advance (h : Fed period limit now due count sign) (hle : now ≤ now') :
    Fed period limit now' due count sign := by
  obtain ⟨spare, hlimit, hsign⟩ := h
  exact ⟨spare, hlimit,
    hsign.trans_le (Nat.add_le_add_right (max_le_max_left due hle) _)⟩

theorem Fed.tick (h : Fed period limit now due count sign) (hdue : due ≤ now)
    (hsign : now ≤ sign) : Fed period limit now (now + period) (count + 1) sign := by
  obtain ⟨spare, rfl, hlt⟩ := h
  rw [max_eq_right hdue] at hlt
  cases spare with
  | zero => omega
  | succ spare =>
      refine ⟨spare, by omega, ?_⟩
      rw [Nat.succ_mul] at hlt
      rw [max_eq_left (Nat.le_add_right now period)]
      omega

/-! ## What is not -/

/-- The limit is reached at `lapse` at the latest, when the timer runs late by at most `late`
from `start` on and there is no sign of life. -/
def LapsesBy (period late limit start due count lapse : ℕ) : Prop :=
  ∀ spare, limit = count + spare + 1 →
    max due start + late + spare * (period + late) ≤ lapse

/-- From any count. -/
theorem lapsesBy_of_due (h : max due start + late + (limit - 1) * (period + late) ≤ lapse)
    (count : ℕ) : LapsesBy period late limit start due count lapse := by
  rintro spare rfl
  refine (Nat.add_le_add_left (Nat.mul_le_mul_right _ ?_) _).trans h
  omega

theorem LapsesBy.tick (h : LapsesBy period late limit start due count lapse)
    (hnow : now ≤ max due start + late) :
    LapsesBy period late limit start (now + period) (count + 1) lapse := by
  rintro spare rfl
  have hle := h (spare + 1) (by omega)
  have hmax : max (now + period) start ≤ max due start + late + period :=
    max_le (Nat.add_le_add_right hnow period)
      ((le_max_right due start).trans (by omega))
  rw [Nat.succ_mul] at hle
  omega

theorem LapsesBy.limit_le (h : LapsesBy period late limit start due count lapse)
    (hnow : now ≤ max due start + late) (hlapse : lapse < now) : limit ≤ count := by
  by_contra hlt
  have hle := h (limit - 1 - count) (by omega)
  omega

end Watchdog
