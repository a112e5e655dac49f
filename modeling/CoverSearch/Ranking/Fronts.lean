import CoverSearch.Ranking.Dominance

/-!
# Non-dominated sorting

The members of a population, by their positions in a list, are peeled into fronts: every member waits with the number of
waiting positions that dominate it, the members without any form the next front, and the others' numbers go down
by the dominators that leave. Positions on a cycle of dominance, and those behind one, wait for ever.

* `beats` : the single comparison of a pair, read in both directions;
* `peel` : the fronts of waiting positions;
* `sortPositions`, `nonDominatedSort` : ranks and fronts of members of a matrix, each front in the order of the members.
-/

namespace CoverSearch

/-- The outcome of sorting: the rank of each member by its position, and the members of each front. -/
structure Ranking where
  ranks : List Nat := []
  fronts : List (List Nat) := []
deriving DecidableEq

/-- Whether position `i` dominates position `j`, by the one comparison made for the two, the lesser position first. -/
def beats (compare : Nat → Nat → Dominance) (i j : Nat) : Bool :=
  if i < j then compare i j == .left
  else if j < i then compare j i == .right
  else false

/-- A position that waits for its front. -/
structure Waiting where
  position : Nat
  /-- How many waiting positions dominate it. -/
  above : Nat
deriving DecidableEq

namespace Waiting

/-- The positions that nothing dominates. -/
def front (waiting : List Waiting) : List Nat := (waiting.filter (·.above == 0)).map (·.position)

/-- The other positions after the front has left. -/
def rest (dominates : Nat → Nat → Bool) (waiting : List Waiting) : List Waiting :=
  (waiting.filter (·.above != 0)).map fun w =>
    { w with above := w.above - (front waiting).countP fun i => dominates i w.position }

theorem length_rest_lt (dominates : Nat → Nat → Bool) {waiting : List Waiting} (h : front waiting ≠ []) :
    (rest dominates waiting).length < waiting.length := by
  rw [rest, List.length_map]
  apply Nat.lt_of_le_of_ne (List.length_filter_le _ _)
  intro heq
  apply h
  have hall := List.length_filter_eq_length_iff.1 heq
  simp only [front, List.map_eq_nil_iff, List.filter_eq_nil_iff]
  intro w hw
  simpa using hall w hw

end Waiting

/-- The fronts of waiting positions, until none is free of dominators. -/
def peel (dominates : Nat → Nat → Bool) (waiting : List Waiting) : List (List Nat) :=
  if _h : Waiting.front waiting = [] then []
  else Waiting.front waiting :: peel dominates (Waiting.rest dominates waiting)
termination_by waiting.length
decreasing_by exact Waiting.length_rest_lt dominates _h

/-- The fronts of the positions below `n`. -/
def sortPositions (dominates : Nat → Nat → Bool) (n : Nat) : List (List Nat) :=
  peel dominates ((List.range n).map fun j => ⟨j, (List.range n).countP fun i => dominates i j⟩)

/-- The number of the front that holds a position, zero for a position that none holds. -/
def rankIn (fronts : List (List Nat)) (k : Nat) : Nat := (fronts.findIdx? fun f => f.contains k).getD 0

/-- Whether the member at position `i` dominates the one at `j`, looking at the given columns. -/
def memberBeats (s : Strategy) (m : Matrix) (members : Array Nat) (columns : List Nat) (i j : Nat) : Bool :=
  beats (fun i j => s.compare (m.row (members.getD i 0)) (m.row (members.getD j 0)) columns) i j

/-- Ranks and fronts of members of a matrix, by their positions in the list of members. -/
def nonDominatedSort (s : Strategy) (m : Matrix) (members columns : List Nat) : Ranking :=
  let ms := members.toArray
  let fronts := sortPositions (memberBeats s m ms columns) members.length
  { ranks := (List.range members.length).map (rankIn fronts)
    fronts := fronts.map fun front => front.map fun k => ms.getD k 0 }

/-- Sorting with members and columns checked; fewer than two members are never compared. -/
def nonDominatedSort? (s : Strategy) (m : Matrix) (members columns : List Nat) : Except Fault Ranking :=
  if members.length < 2 || members.all (fun i => i < m.size && s.fits columns (m.row i)) then
    .ok (nonDominatedSort s m members columns)
  else .error .outOfRange

end CoverSearch
