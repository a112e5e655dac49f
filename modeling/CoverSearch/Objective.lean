import CoverSearch.Coverage
import CoverSearch.Graph

/-!
# Objectives

* `Objective` : a fitness on some kind of individual, zero when covered, smaller when closer;
* `BlockObjective` : the objective of covering one vertex of a control dependence graph;
* `BlockObjective.fitness` : the hops up the cached path to the nearest recorded vertex, plus the normalized distance
  recorded there; `maxFitness` when nothing on the path is recorded.
-/

namespace CoverSearch

/-- A quantity to bring down to zero. -/
structure Objective (C : Type u) where
  fitness : C → Float
  /-- Whether an individual counts as covering the objective where the ranked objectives are chosen. -/
  covers : C → Bool := fun c => fitness c == 0

/-- A vertex of a control dependence graph as an objective. -/
structure BlockObjective where
  graph : Graph
  target : Target
  mem : graph.contains target = true

namespace BlockObjective

/-- Objectives are told apart by their targets. -/
instance : BEq BlockObjective := ⟨fun a b => a.target == b.target⟩

def isRoot (o : BlockObjective) : Bool := o.target.isRoot

/-- The fitness of vertices `level` hops up a path, nearest first. -/
def fitnessAlong (c : Coverage) (level : Nat) : List Target → Float
  | [] => maxFitness
  | t :: above =>
    match c.get? t with
    | some d => if level = 0 then normalize d else Float.ofNat level + normalize d
    | none => fitnessAlong c (level + 1) above

/-- How far an execution stayed from the target. -/
def fitness (o : BlockObjective) (c : Coverage) : Float := fitnessAlong c 0 (o.graph.climb o.target)

/-- The objective on individuals that carry the coverage of their execution. -/
def toObjective (o : BlockObjective) (coverage : C → Coverage) : Objective C :=
  { fitness := fun c => o.fitness (coverage c) }

end BlockObjective

/-- The objective for a target of a graph. -/
def Graph.objective (g : Graph) (t : Target) : Except Fault BlockObjective :=
  if h : g.contains t = true then .ok ⟨g, t, h⟩ else .error (.unknownTarget t g.unit)

end CoverSearch
