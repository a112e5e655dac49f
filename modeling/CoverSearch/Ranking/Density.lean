import CoverSearch.Ranking.Fronts

/-!
# Sub-vector dominance

* `subvectorDominance` : for each member, the greatest number of columns in which one other member is less;
* `svdSort` : the members by ascending score, equal scores in the given order.
-/

namespace CoverSearch

/-- The number of columns in which row `j` is less than row `i`. -/
def columnsBelow (m : Matrix) (columns : List Nat) (i j : Nat) : Nat :=
  columns.countP fun c => m.value j c < m.value i c

/-- The score of row `i` among members; zero when there is no other row. -/
def svdScore (m : Matrix) (members columns : List Nat) (i : Nat) : Nat :=
  ((members.filter (· != i)).map (columnsBelow m columns i)).foldl max 0

/-- The scores of the members. -/
def subvectorDominance (m : Matrix) (members columns : List Nat) : List Nat :=
  members.map (svdScore m members columns)

/-- The members by ascending score. -/
def svdSort (m : Matrix) (members columns : List Nat) : List Nat :=
  ((members.zip (subvectorDominance m members columns)).mergeSort fun a b => a.2 ≤ b.2).map (·.1)

/-- The members are rows, and the columns exist if two different rows are compared. -/
def densityFits (m : Matrix) (members columns : List Nat) : Bool :=
  members.all (· < m.size) && (columns.all (· < m.columns) || members.all fun i => members.all (· == i))

/-- Scores and order, with members and columns checked. -/
def svdSort? (m : Matrix) (members columns : List Nat) : Except Fault (List Nat × List Nat) :=
  if densityFits m members columns then
    .ok (subvectorDominance m members columns, svdSort m members columns)
  else .error .outOfRange

end CoverSearch
