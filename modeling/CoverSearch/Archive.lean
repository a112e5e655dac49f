import CoverSearch.Breeder
import CoverSearch.Objective
import CoverSearch.Snapshot

/-!
# Archives of covering individuals

For each objective the archive keeps the shortest individual that covers it, the latest of equally short ones, and the
least fitness ever seen.

* `Slot.offer`, `Archive.update` : one individual for one objective, and a batch for all of them;
* `Archive.tests` : the kept individuals, equal ones once;
* `Archive.snapshot` : the numbers reported after a generation.
-/

namespace CoverSearch

/-- What is kept for one objective. -/
structure Slot (C : Type) where
  objective : Objective C
  entry : Option C := none
  best : Float := maxFitness

/-- What is kept for each objective. -/
structure Archive (C : Type) where
  slots : List (Slot C)

variable {C : Type} [Chromosome C]

namespace Slot

/-- An individual replaces the entry unless the entry is shorter. -/
def accepts (s : Slot C) (c : C) : Bool :=
  match s.entry with
  | none => true
  | some e => Chromosome.size c ≤ Chromosome.size e

/-- One more individual. -/
def offer (s : Slot C) (c : C) : Slot C :=
  let fitness := s.objective.fitness c
  { s with
    best := if fitness < s.best then fitness else s.best
    entry := if fitness == 0 && s.accepts c then some c else s.entry }

omit [Chromosome C] in
def isCovered (s : Slot C) : Bool := s.entry.isSome

end Slot

namespace Archive

/-- Nothing is kept yet. -/
def empty (objectives : List (Objective C)) : Archive C := ⟨objectives.map fun o => { objective := o }⟩

/-- The archive after a batch of individuals. -/
def update (a : Archive C) (batch : List C) : Archive C := ⟨a.slots.map fun s => batch.foldl Slot.offer s⟩

/-- The number of objectives covered. -/
def coveredTargets (a : Archive C) : Nat := a.slots.countP Slot.isCovered

def totalTargets (a : Archive C) : Nat := a.slots.length

/-- The number of objectives that a batch is the first to cover. -/
def newlyCovered (a : Archive C) (batch : List C) : Nat :=
  a.slots.countP fun s => !s.isCovered && (batch.foldl Slot.offer s).isCovered

/-- The kept individuals in the order of their objectives, equal ones once. -/
def tests (a : Archive C) : List C :=
  (a.slots.filterMap (·.entry)).foldl (fun kept c => if kept.contains c then kept else kept ++ [c]) []

/-- The number of distinct individuals kept. -/
def size (a : Archive C) : Nat := a.tests.length

/-- The individual kept for the objective at a position. -/
def entry? (a : Archive C) (i : Nat) : Except Fault (Option C) :=
  match a.slots[i]? with
  | some s => .ok s.entry
  | none => .error .outOfRange

/-- Covered objectives in percent; all of them when there are none. -/
def coverage (a : Archive C) : Float :=
  if a.slots.isEmpty then 100 else Float.ofNat a.coveredTargets * 100 / Float.ofNat a.totalTargets

/-- The least fitness values, added from left to right. -/
def fitnessSum (a : Archive C) : Float := a.slots.foldl (fun sum s => sum + s.best) 0

/-- The mean size of the kept individuals, zero without any; their total size has to fit into 64 bits. -/
def averageLength (a : Archive C) : Except Fault Float :=
  let tests := a.tests
  let length := total (tests.map Chromosome.size)
  if tests.isEmpty then .ok 0
  else if length < wordBound then .ok (Float.ofNat length / Float.ofNat tests.length)
  else .error .overflow

/-- The numbers reported after a generation in which `active` objectives were ranked. -/
def snapshot (a : Archive C) (generation active : Nat) : Except Fault Snapshot := do
  return {
    generation
    coveredTargets := a.coveredTargets
    totalTargets := a.totalTargets
    coverage := a.coverage
    archiveSize := a.size
    activeTargets := active
    averageLength := ← a.averageLength }

end Archive

end CoverSearch
