import CoverSearch.Ranking.Density

/-!
# Preference sorting

An objective is uncovered when every row is above zero in its column. The first front holds the best row of each
uncovered column; the other rows are sorted by dominance on the uncovered columns alone.

* `preferenceSort` : the uncovered columns and the fronts of all rows;
* `survivors` : rows front by front, each front by sub-vector dominance on all columns, as long as there is room.
-/

namespace CoverSearch

/-- The uncovered columns, and the rows in fronts, best first. -/
structure Preference where
  fronts : List (List Nat) := []
  uncovered : List Nat := []
deriving DecidableEq

namespace Preference

/-- The number of rows in fronts. -/
def size (p : Preference) : Nat := total (p.fronts.map List.length)

def isEmpty (p : Preference) : Bool := p.fronts.isEmpty

end Preference

/-- The first row that is least in a column. -/
def bestRow (m : Matrix) (column : Nat) : Nat :=
  m.allRows.foldl (fun best i => if m.value i column < m.value best column then i else best) 0

/-- The columns in which the best row is above zero. -/
def uncoveredColumns (m : Matrix) : List Nat :=
  m.allColumns.filter fun c => 0 < m.value (bestRow m c) c

/-- The best rows of the uncovered columns, each at its first choice. -/
def preferred (m : Matrix) : List Nat := ((uncoveredColumns m).map (bestRow m)).eraseDups

/-- The other rows. -/
def unpreferred (m : Matrix) : List Nat :=
  let first := preferred m
  m.allRows.filter fun i => !first.contains i

/-- The uncovered columns and the fronts of all rows. -/
def preferenceSort (s : Strategy) (m : Matrix) : Preference :=
  if m.isEmpty then {}
  else
    let uncovered := uncoveredColumns m
    let first := preferred m
    { fronts := (if first.isEmpty then [] else [first]) ++
        (nonDominatedSort s m (unpreferred m) uncovered).fronts
      uncovered }

/-- The rows selected so far, and after them those of further fronts, each front by sub-vector dominance, while there is
room for `size` rows. -/
def fillUp (m : Matrix) (size : Nat) (selected : List Nat) : (fronts : List (List Nat)) → List Nat
  | [] => selected
  | front :: fronts =>
    if size ≤ selected.length then selected
    else
      let room := size - selected.length
      fillUp m size (selected ++ (svdSort m front m.allColumns).take room) fronts

/-- The `size` rows that survive, best first. -/
def survivors (s : Strategy) (m : Matrix) (size : Nat) : List Nat := fillUp m size [] (preferenceSort s m).fronts

end CoverSearch
