import CoverSearch.Breeder
import CoverSearch.Objective

/-!
# Programs

A program is a list of opcodes together with the coverage of its last execution.

* `Chromosome Program` : one opcode is removed or inserted by mutation, tails are swapped by crossover;
* `Rule`, `Machine.execute` : what an execution records;
* `Goal` : objectives on programs.
-/

namespace CoverSearch

/-- A list of opcodes, with what its last execution covered. -/
structure Program where
  opcodes : List Nat
  coverage : Coverage := .empty

namespace Program

instance : Inhabited Program := ⟨{ opcodes := [] }⟩

/-- Programs are equal when their opcodes and their coverage are. -/
protected def beq (a b : Program) : Bool := a.opcodes == b.opcodes && a.coverage == b.coverage

instance : BEq Program := ⟨Program.beq⟩

/-! ## Variation -/

/-- The number of opcodes that mutation inserts from. -/
def insertedOpcodes : Nat := 4

/-- A random opcode put at a random place. -/
def insertOpcode (opcodes : List Nat) : Draw (List Nat) := do
  let place ← Draw.upTo opcodes.length
  let opcode ← Draw.index insertedOpcodes
  return opcodes.take place ++ opcode :: opcodes.drop place

/-- A random opcode left out. -/
def removeOpcode (opcodes : List Nat) : Draw (List Nat) := do
  return opcodes.eraseIdx (← Draw.index opcodes.length)

/-- One opcode less or more, with equal chance; an empty program gets one. -/
def mutate (p : Program) : Draw Program := do
  if p.opcodes.isEmpty then return { opcodes := ← insertOpcode p.opcodes }
  else if ← Draw.chance 0.5 then return { opcodes := ← removeOpcode p.opcodes }
  else return { opcodes := ← insertOpcode p.opcodes }

/-- Both programs are cut, and their tails swapped. -/
def crossover (p q : Program) : Draw (Program × Program) := do
  let i ← Draw.upTo p.opcodes.length
  let j ← Draw.upTo q.opcodes.length
  return ({ opcodes := p.opcodes.take i ++ q.opcodes.drop j }, { opcodes := q.opcodes.take j ++ p.opcodes.drop i })

instance : Chromosome Program where
  storage := .tight 72
  size p := p.opcodes.length
  mutate := mutate
  crossover := crossover

/-- How many entries of a list are missing from a program. -/
def missing (p : Program) (wanted : List Nat) : Nat := wanted.countP fun o => !p.opcodes.contains o

end Program

/-! ## Execution -/

/-- A branch: reached by programs with all opcodes of the gate, at the distance of the missing opcodes of the goal. -/
structure Rule where
  target : Target
  gate : List Nat
  goal : List Nat

/-- How programs are executed. -/
structure Machine where
  rules : List Rule := []
  /-- Opcodes that end an execution before it records anything. -/
  crash : List Nat := []

namespace Machine

/-- The coverage after one more rule. -/
def apply (p : Program) (c : Coverage) (r : Rule) : Coverage :=
  if p.missing r.gate = 0 then c.record r.target (Float.ofNat (p.missing r.goal)) else c

/-- A program with the coverage of a new execution. -/
def execute (m : Machine) (p : Program) : Program :=
  if p.opcodes.any fun o => m.crash.contains o then { p with coverage := .empty }
  else { p with coverage := m.rules.foldl (apply p) .empty }

end Machine

/-! ## Objectives -/

/-- An objective on programs. -/
inductive Goal
  /-- Cover a vertex of a control dependence graph. -/
  | block (objective : BlockObjective)
  /-- Hold all of some opcodes. -/
  | hold (wanted : List Nat)
  /-- The same fitness for every program. -/
  | constant (fitness : Float)

def Goal.objective : Goal → Objective Program
  | block o => o.toObjective Program.coverage
  | hold wanted => { fitness := fun p => Float.ofNat (p.missing wanted) }
  | constant x => { fitness := fun _ => x }

end CoverSearch
