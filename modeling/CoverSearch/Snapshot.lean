import CoverSearch.Json.Fields
import CoverSearch.Json.Reader

/-!
# Snapshots of a search

`Snapshot` holds the numbers reported after a generation, and `Snapshot.parse?` reads them back from a report.
-/

namespace CoverSearch

/-- The state of an archive after a generation; generation zero is the initial population. -/
structure Snapshot where
  generation : Nat
  coveredTargets : Nat
  totalTargets : Nat
  /-- Covered targets in percent. -/
  coverage : Float
  /-- The number of distinct individuals kept. -/
  archiveSize : Nat
  /-- How many objectives were ranked. -/
  activeTargets : Nat
  /-- The mean size of the individuals kept. -/
  averageLength : Float

namespace Snapshot

def fieldNames : List (List String) :=
  [["generation"], ["covered_targets"], ["total_targets"], ["coverage"], ["archive_size"], ["active_targets"],
    ["average_length"]]

/-- A count below `2 ^ 64`. -/
def count? (v : Json) : Option Nat := v.word?.map UInt64.toNat

def ofJson? (v : Json) : Option Snapshot := do
  match ← v.fields? fieldNames with
  | [generation, coveredTargets, totalTargets, coverage, archiveSize, activeTargets, averageLength] =>
    return {
      generation := ← Json.required count? generation
      coveredTargets := ← Json.required count? coveredTargets
      totalTargets := ← Json.required count? totalTargets
      coverage := ← Json.required Json.float? coverage
      archiveSize := ← Json.required count? archiveSize
      activeTargets := ← Json.required count? activeTargets
      averageLength := ← Json.required Json.float? averageLength }
  | _ => none

/-- The snapshot in a text, whose fields all have to be there. -/
def parse? (text : String) : Option Snapshot := Json.parse? text >>= ofJson?

end Snapshot

end CoverSearch
