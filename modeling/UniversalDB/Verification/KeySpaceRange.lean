import Mathlib.Data.String.Basic
import UniversalDB.Library.Cuts
import UniversalDB.Model.KeySpaceRange

/-! # Ranges of keys -/

namespace UniversalDB.Server

/-- A range is a half-open interval of the keys of a table. -/
theorem withinRange_iff {range : KeySpaceRange} {databaseId tableId key : String} :
    withinRange range databaseId tableId key ↔
      range.databaseId = databaseId ∧ range.tableId = tableId ∧
        (HalfOpenInterval.mk range.startKey range.endKey).Contains key := by
  obtain ⟨databaseId', tableId', startKey, endKey⟩ := range
  by_cases hdatabase : databaseId' = databaseId
  · by_cases htable : tableId' = tableId
    · cases startKey <;> cases endKey <;>
        simp [withinRange, HalfOpenInterval.Contains, hdatabase, htable, -String.lt_iff_ltb]
    · simp [withinRange, htable]
  · simp [withinRange, hdatabase]

end UniversalDB.Server
