import CoverSearch.Program
import CoverSearch.Search.Evolution
import CoverSearch.Search.Sampling

/-!
# Trials of searches over programs

A trial is a whole search over programs with scripted or random collaborators, which keep a log of what they are
asked to do.

* `Generator`, `Nursery` : where fresh programs and offspring come from;
* `Log` : the state of the collaborators;
* `Trial.run` : the search by one of the algorithms.
-/

namespace CoverSearch

/-- Where fresh programs come from. -/
inductive Generator
  /-- Programs to hand out in turn, again and again. -/
  | script (programs : List (List Nat))
  /-- Random programs of `lo` to `hi` opcodes below `opcodes`, which take so many bytes each. -/
  | random (lo hi opcodes : Nat) (bytes : Nat := 4)

/-- Where offspring come from. -/
inductive Nursery
  /-- Generations to hand out in turn, again and again, whatever is asked for. -/
  | script (generations : List (List (List Nat)))
  | breeder (b : Breeder)

/-- What the collaborators of a trial have been asked to do. -/
structure Log where
  generated : Nat := 0
  executed : Nat := 0
  /-- What listeners were told, oldest first. -/
  heard : List Nat := []
  /-- The populations that offspring were asked of, oldest first. -/
  populations : List (List Program) := []

/-- How the ranked objectives are chosen, if any are. -/
inductive Algorithm
  | mosa
  | dynaMosa (frontier : Frontier)
  | random

/-- A search over programs. -/
structure Trial where
  algorithm : Algorithm
  objectives : List (Objective Program)
  config : Config
  generator : Generator
  nursery : Nursery
  machine : Machine
  /-- The number of executed batches after which the search is cancelled. -/
  cancelAfter : Option Nat := none

/-- The entry at a position of a script that starts again at its end. -/
def cycled? (script : List α) (i : Nat) : Option α := script[i % script.length]?

namespace Generator

/-- `n` opcodes below `opcodes`. -/
def opcodesBelow (opcodes : Nat) : Nat → Draw (List Nat)
  | 0 => return []
  | n + 1 => do
    let o ← Draw.index opcodes
    return o :: (← opcodesBelow opcodes n)

/-- The opcodes of the program number `i`. -/
def opcodes (g : Generator) (i : Nat) : Draw (List Nat) :=
  match g with
  | .script programs => return (cycled? programs i).getD []
  | .random lo hi opcodes bytes => do
    let length ← Draw.between lo hi
    reserve length bytes
    opcodesBelow opcodes length

end Generator

/-- The offspring of a population, in the generation number `i`. -/
def Nursery.offspring (n : Nursery) (population : List Program) (size i : Nat) : Draw (List Program) :=
  match n with
  | .script generations => return ((cycled? generations i).getD []).map fun opcodes => { opcodes }
  | .breeder b => b.offspring population size

namespace Trial

def generate (t : Trial) : Action Log Program := do
  let log ← get
  let opcodes ← t.generator.opcodes log.generated
  set { log with generated := log.generated + 1 }
  return { opcodes }

def offspring (t : Trial) (population : List Program) (size : Nat) : Action Log (List Program) := do
  let log ← get
  set { log with populations := log.populations ++ [population] }
  t.nursery.offspring population size log.populations.length

def execute (t : Trial) (population : List Program) (log : Log) : List Program × Log :=
  (population.map t.machine.execute, { log with executed := log.executed + population.length })

/-- A listener that notes one number of each snapshot. -/
def noting (number : Snapshot → Nat) (snapshot : Snapshot) (log : Log) : Log :=
  { log with heard := log.heard ++ [number snapshot] }

/-- The collaborators: one listener notes generations, a second one covered targets. -/
def collaborators (t : Trial) : Collaborators Log Program where
  generate := t.generate
  offspring := t.offspring
  execute := t.execute
  length_execute := by simp [execute]
  listeners := [noting Snapshot.generation, noting Snapshot.coveredTargets]

/-- The search of a trial; generation `g` starts after `g` executed batches. -/
def search (t : Trial) : Search Log Program where
  objectives := t.objectives.toArray
  collaborators := t.collaborators
  config := t.config
  cancelled := fun g =>
    match t.cancelAfter with
    | some k => k ≤ g
    | none => false

/-- The report of the search, and the log of its collaborators. -/
def run (t : Trial) : Except Fault (Search.Result Program × Log) :=
  match t.algorithm with
  | .mosa => t.search.mosa {}
  | .dynaMosa frontier => t.search.dynaMosa frontier {}
  | .random => t.search.sample {}

end Trial

end CoverSearch
