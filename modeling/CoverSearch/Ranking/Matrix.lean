import CoverSearch.Fault
import CoverSearch.Objective

/-!
# Fitness matrices

One row of doubles for each individual, one column for each ranked objective, all rows of the same length.

* `Matrix.ofRows`, `Matrix.evaluate` : from given rows, and from individuals and objectives;
* `Matrix.value` : an entry, for positions inside the matrix; `Matrix.row?`, `Matrix.value?` check the positions.
-/

namespace CoverSearch

/-- The fitness values of one individual. -/
abbrev Row := Array Float

/-- The value in a column. -/
def Row.value (r : Row) (column : Nat) : Float := r.getD column 0

/-- Rows of fitness values of one length. -/
structure Matrix where
  rows : Array Row
  columns : Nat
  rectangular : ∀ r ∈ rows, r.size = columns

namespace Matrix

instance : Inhabited Matrix := ⟨#[], 0, by simp⟩

/-- The number of rows. -/
def size (m : Matrix) : Nat := m.rows.size

def isEmpty (m : Matrix) : Bool := m.rows.isEmpty

/-- The row at a position inside the matrix. -/
def row (m : Matrix) (i : Nat) : Row := m.rows.getD i #[]

/-- The entry at positions inside the matrix. -/
def value (m : Matrix) (i j : Nat) : Float := (m.row i).value j

/-- All columns in ascending order. -/
def allColumns (m : Matrix) : List Nat := List.range m.columns

/-- All rows in ascending order. -/
def allRows (m : Matrix) : List Nat := List.range m.size

def row? (m : Matrix) (i : Nat) : Except Fault Row :=
  if i < m.size then .ok (m.row i) else .error .outOfRange

def value? (m : Matrix) (i j : Nat) : Except Fault Float :=
  if i < m.size && j < m.columns then .ok (m.value i j) else .error .outOfRange

/-- The matrix of the given rows, if they have one length. -/
def ofRows (rows : Array Row) : Except Fault Matrix :=
  let columns := (rows.getD 0 #[]).size
  if h : ∀ r ∈ rows, r.size = columns then .ok ⟨rows, columns, h⟩ else .error .raggedRows

/-- The fitness of every individual for the objectives at the positions `targets`. -/
def evaluate (population : List C) (objectives : Array (Objective C)) (targets : List Nat) : Except Fault Matrix :=
  if population.isEmpty then .ok ⟨#[], targets.length, by simp⟩
  else
    match targets.mapM fun t => objectives[t]? with
    | none => .error .outOfRange
    | some ranked =>
      .ok ⟨(population.map fun c => (ranked.map fun o => o.fitness c).toArray).toArray, ranked.length, by
        intro r hr
        obtain ⟨c, -, rfl⟩ := List.mem_map.1 (List.mem_toArray.1 hr)
        simp⟩

end Matrix

end CoverSearch
