import CoverSearch.Selection

/-!
# Offspring

* `Storage` : the memory that lists of individuals take;
* `Chromosome` : individuals with a size, that can be mutated and crossed;
* `Breeder.offspring` : children of selected pairs, crossed and mutated at given rates.
-/

namespace CoverSearch

/-- Bytes that lists of individuals take. Lists may be longer than what they hold, as they grow ahead of it by a rule
of their own. -/
structure Storage where
  /-- One individual in a list. -/
  individual : Nat
  /-- The list of `n` individuals that one list becomes when another is appended to it. -/
  joined : Nat → Nat
  /-- The longest list that is made to rank `n` individuals and to keep the best of them. -/
  ranked : Nat → Nat
  /-- The longest list that has an entry for each of `n` objectives, such as an archive of individuals. -/
  archived : Nat → Nat
  /-- A list has room for what it holds. -/
  le_joined : ∀ n, n * individual ≤ joined n

/-- Lists that are as long as what they hold, and nothing longer beside them. -/
def Storage.tight (bytes : Nat) : Storage where
  individual := bytes
  joined n := n * bytes
  ranked n := n * bytes
  archived n := n * bytes
  le_joined n := Nat.le_refl (n * bytes)

/-- Individuals that a search can evolve. Without rules of their own they are copied. -/
class Chromosome (C : Type) extends BEq C where
  storage : Storage
  size : C → Nat
  mutate : C → Draw C := pure
  crossover : C → C → Draw (C × C) := fun a b => pure (a, b)

/-- Bytes that one individual takes in a list. -/
def individualBytes (C : Type) [Chromosome C] : Nat := (Chromosome.storage C).individual

/-- How the next generation is bred. -/
structure Breeder where
  selection : Selection
  crossoverRate : Float
  mutationRate : Float

namespace Breeder

/-- A breeder that mutates every child; the crossover rate is moved into `[0, 1]`. -/
def new (selection : Selection) (crossoverRate : Float) : Breeder :=
  ⟨selection, clamp 0 1 crossoverRate, 1⟩

instance : Inhabited Breeder := ⟨new default 0.8⟩

/-- The mutation rate moved into `[0, 1]`. -/
def withMutationRate (b : Breeder) (rate : Float) : Breeder := { b with mutationRate := clamp 0 1 rate }

variable {C : Type} [Chromosome C]

/-- A selected member of a population. -/
def parent (b : Breeder) (population : Array C) : Draw C := do
  match population[← b.selection.select population.size]? with
  | some c => return c
  | none => Draw.fail .outOfRange

/-- A child, mutated at the breeder's rate. -/
def finish (b : Breeder) (child : C) : Draw C := do
  if ← Draw.chance b.mutationRate then Chromosome.mutate child else return child

/-- Two children of two selected parents. -/
def pair (b : Breeder) (population : Array C) : Draw (C × C) := do
  let p ← b.parent population
  let q ← b.parent population
  let (c, d) ← if ← Draw.chance b.crossoverRate then Chromosome.crossover p q else pure (p, q)
  return (← b.finish c, ← b.finish d)

/-- `n` children in pairs, of the last pair one by a toss if `n` is odd. -/
def children (b : Breeder) (population : Array C) : Nat → Draw (List C)
  | 0 => return []
  | 1 => do
    let (c, d) ← b.pair population
    return if ← Draw.chance 0.5 then [c] else [d]
  | n + 2 => do
    let (c, d) ← b.pair population
    return c :: d :: (← b.children population n)

/-- The children of a population, best first, once there is room for them. -/
def offspring (b : Breeder) (population : List C) (size : Nat) : Draw (List C) := do
  reserve size (individualBytes C)
  b.children population.toArray size

end Breeder

end CoverSearch
