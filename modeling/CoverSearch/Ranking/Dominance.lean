import CoverSearch.Ranking.Matrix

/-!
# Dominance between rows

* `Strategy` : a rule for when one row dominates another on some columns;
* `pareto` : better in some column and worse in none;
* `lesserSum`, `cyclic`, `always` : rules that need not order the rows;
* `Strategy.compare?` : the comparison of two rows of any length, with the columns checked.
-/

namespace CoverSearch

/-- Which of two rows dominates the other. -/
inductive Dominance
  | left
  | right
  | neither
deriving DecidableEq

/-- A rule of dominance. -/
structure Strategy where
  /-- Whether the first row dominates the second on the given columns. -/
  dominates : Row → Row → List Nat → Bool
  compare : Row → Row → List Nat → Dominance := fun a b columns =>
    if dominates a b columns then .left else if dominates b a columns then .right else .neither
  /-- The columns that a comparison looks at. -/
  reads : List Nat → List Nat := fun columns => columns

namespace Strategy

/-- The columns that a comparison looks at are columns of the row. -/
def fits (s : Strategy) (columns : List Nat) (r : Row) : Bool := (s.reads columns).all fun j => j < r.size

/-- The comparison of two rows that have the columns it looks at. -/
def compare? (s : Strategy) (a b : Row) (columns : List Nat) : Except Fault Dominance :=
  if s.fits columns a && s.fits columns b then .ok (s.compare a b columns) else .error .outOfRange

/-- Whether a row dominates another that has the columns to look at. -/
def dominates? (s : Strategy) (a b : Row) (columns : List Nat) : Except Fault Bool :=
  if s.fits columns a && s.fits columns b then .ok (s.dominates a b columns) else .error .outOfRange

end Strategy

/-! ## Pareto dominance -/

/-- Whether the first row is less than the second in some column, and whether the second is less than the first in some
column. -/
def advantages (a b : Row) (columns : List Nat) : Bool × Bool :=
  columns.foldl (fun found j =>
    if a.value j < b.value j then (true, found.2)
    else if b.value j < a.value j then (found.1, true)
    else found) (false, false)

/-- The row with advantages dominates one without. -/
def paretoCompare (a b : Row) (columns : List Nat) : Dominance :=
  match advantages a b columns with
  | (true, false) => .left
  | (false, true) => .right
  | _ => .neither

/-- Better in some column and worse in none. -/
def pareto : Strategy :=
  { dominates := fun a b columns => paretoCompare a b columns == .left
    compare := paretoCompare }

/-! ## Other rules -/

/-- The sum of a row over columns, from left to right. -/
def rowSum (r : Row) (columns : List Nat) : Float := columns.foldl (fun sum j => sum + r.value j) 0

/-- The lesser sum dominates. -/
def lesserSum : Strategy := { dominates := fun a b columns => rowSum a columns < rowSum b columns }

/-- A step of one up, or of two down, in the first column; three values can dominate each other in turn. -/
def cyclic : Strategy :=
  { dominates := fun a b columns =>
      match columns with
      | [] => false
      | j :: _ => b.value j - a.value j == 1 || b.value j - a.value j == -2
    reads := fun columns => columns.take 1 }

/-- Every row dominates every row. -/
def always : Strategy :=
  { dominates := fun _ _ _ => true
    reads := fun _ => [] }

end CoverSearch
