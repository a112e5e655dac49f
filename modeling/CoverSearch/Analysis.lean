import CoverSearch.Objective
import CoverSearch.Record.Reader

/-!
# The control dependence graphs of a program

* `Analysis.insert`, `Analysis.ofRecords` : graphs by code unit, each unit once;
* `Analysis.objectives` : one objective for each vertex that is not a root, by unit, then in declaration order;
* `Analysis.independentTargets`, `Analysis.dependents` : control dependence across all graphs.
-/

namespace CoverSearch

/-- Control dependence graphs in ascending order of their units. -/
structure Analysis where
  graphs : List Graph := []

namespace Analysis

/-- A graph put before the first graph of a greater unit. -/
def insertSorted (g : Graph) : List Graph → List Graph
  | [] => [g]
  | h :: rest => if g.unit < h.unit then g :: h :: rest else h :: insertSorted g rest

/-- The graph of a code unit. -/
def find? (a : Analysis) (unit : String) : Option Graph := a.graphs.find? (·.unit == unit)

/-- One more graph, of a unit that has none yet. -/
def insert (a : Analysis) (g : Graph) : Except InputError Analysis :=
  if (a.find? g.unit).isSome then .error (.duplicateUnit g.unit)
  else .ok ⟨insertSorted g a.graphs⟩

/-- The graph of a record, put to the others. -/
def insertRecord (a : Analysis) (r : Record) : Except InputError Analysis := do
  a.insert (← Graph.ofRecord r)

/-- The graphs of all records, or the first reason against one. -/
def ofRecords (records : List Record) : Except InputError Analysis :=
  records.foldlM insertRecord {}

def size (a : Analysis) : Nat := a.graphs.length

def isEmpty (a : Analysis) : Bool := a.graphs.isEmpty

/-- The graph of a code unit that has to be there. -/
def graphOf (a : Analysis) (unit : String) : Except Fault Graph :=
  match a.find? unit with
  | some g => .ok g
  | none => .error (.unknownUnit unit)

/-! ## Targets -/

/-- The number of vertices that are not a root. -/
def targetCount (a : Analysis) : Nat := total (a.graphs.map fun g => g.targets.length)

/-- The objectives of one graph. -/
def objectivesOf (g : Graph) : List BlockObjective :=
  g.targets.attach.map fun t => ⟨g, t.1, g.contains_of_mem_targets t.2⟩

/-- One objective for each vertex that is not a root. -/
def objectives (a : Analysis) : List BlockObjective := a.graphs.flatMap objectivesOf

/-- The objective for a target. -/
def objective (a : Analysis) (t : Target) : Except Fault BlockObjective := do
  (← a.graphOf t.unit).objective t

/-- Targets that are controlled by the root of their unit alone. -/
def independentTargets (a : Analysis) : List Target := a.graphs.flatMap Graph.independentTargets

/-- The direct dependents of a target. -/
def dependents (a : Analysis) (t : Target) : Except Fault (List Target) := do
  (← a.graphOf t.unit).dependents t

/-! ## Reported numbers -/

/-- A sum that has to fit into 64 bits. -/
def checkedSum (counts : List Nat) : Except Fault Nat :=
  if total counts < wordBound then .ok (total counts) else .error .overflow

def branches (a : Analysis) : Except Fault Nat := checkedSum (a.graphs.map (·.branches.toNat))

def assertions (a : Analysis) : Except Fault Nat := checkedSum (a.graphs.map (·.assertions.toNat))

/-- The mean of the average depths, added in the order of the units; zero without graphs. -/
def averageDepth (a : Analysis) : Float :=
  if a.isEmpty then 0
  else a.graphs.foldl (fun sum g => sum + g.averageDepth) 0 / Float.ofNat a.size

end Analysis

end CoverSearch
