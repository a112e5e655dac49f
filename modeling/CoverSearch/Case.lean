import CoverSearch.Breeder
import CoverSearch.Objective

/-!
# Cases

`Case` is an individual whose fitness values are given, for ranking and archiving without an execution.
-/

namespace CoverSearch

/-- An individual with a name, a size and given fitness values. -/
structure Case where
  id : Nat
  size : Nat
  fitness : List Float
deriving Inhabited

namespace Case

protected def beq (a b : Case) : Bool := a.id == b.id && a.size == b.size && a.fitness == b.fitness

instance : BEq Case := ⟨Case.beq⟩

instance : Chromosome Case where
  storage := .tight 40
  size := Case.size

/-- The objective whose fitness is the value at a position, the greatest fitness where there is none. -/
def objective (i : Nat) : Objective Case := { fitness := fun c => c.fitness.getD i maxFitness }

/-- The objectives of the first `n` positions, which take so many bytes each, once there is room for them. -/
def objectives (n : Nat) (bytes : Nat := 8) : Except Fault (List (Objective Case)) := do
  reserve n bytes
  return (List.range n).map objective

end Case

end CoverSearch
