import CoverSearch.Archive
import CoverSearch.Config
import CoverSearch.Frontier
import CoverSearch.Ranking.Preference

/-!
# Searches

A search runs generation after generation over an archive that never forgets a cover. What it drives from outside are
its collaborators; their common state is `σ`, and they may take random words.

* `Collaborators` : the generator, the source of offspring, the executor and the listeners;
* `Search`, `Progress` : what is fixed during a search, and what a generation changes;
* `Search.advance` : generation after generation, until the budget is spent or a stop is due;
* `Search.Result` : what is reported at the end.
-/

namespace CoverSearch

/-- A computation with random choices on the state of the collaborators. -/
abbrev Action (σ : Type) := StateT σ Draw

/-- What a search drives from outside. -/
structure Collaborators (σ C : Type) where
  /-- A fresh individual. -/
  generate : Action σ C
  /-- Offspring of a population, best first; the number is asked for, not promised. -/
  offspring : List C → Nat → Action σ (List C)
  /-- Runs individuals, each of which may be changed by that. -/
  execute : List C → σ → List C × σ
  /-- Executed individuals keep their number. -/
  length_execute : ∀ population state, (execute population state).1.length = population.length
  /-- Called in turn after the initial population and after every generation. -/
  listeners : List (Snapshot → σ → σ) := []

namespace Collaborators

/-- The state after every listener has been told. -/
def notify {σ C : Type} (k : Collaborators σ C) (snapshot : Snapshot) (state : σ) : σ :=
  k.listeners.foldl (fun state listener => listener snapshot state) state

/-- `n` fresh individuals in turn. -/
def generateEach {σ C : Type} (k : Collaborators σ C) : (n : Nat) → Action σ (List C)
  | 0 => return []
  | n + 1 => do
    let c ← k.generate
    return c :: (← generateEach k n)

/-- `n` fresh individuals, once there is room for them. -/
def generateMany {σ C : Type} [Chromosome C] (k : Collaborators σ C) (n : Nat) : Action σ (List C) := do
  reserve n (individualBytes C)
  k.generateEach n

end Collaborators

/-- What is fixed during a search. -/
structure Search (σ C : Type) where
  objectives : Array (Objective C)
  collaborators : Collaborators σ C
  config : Config
  /-- Whether the search has been cancelled when generation `g` is about to start. -/
  cancelled : Nat → Bool := fun _ => false
  /-- The seed that is drawn for a configuration without one. -/
  drawnSeed : UInt64 := 0

/-- What a generation changes. -/
structure Progress (σ C : Type) where
  population : List C
  archive : Archive C
  policy : Policy
  /-- The ranked objectives. -/
  active : List Nat
  /-- The snapshots so far, oldest first. -/
  history : List Snapshot
  source : Source
  state : σ

namespace Search

/-! ## Budget -/

/-- Bytes that one snapshot takes in a list. -/
def snapshotBytes : Nat := 56

/-- Room for the snapshots of all generations and of the initial population has to be found in advance. -/
def checkHistory (config : Config) : Except Fault Unit :=
  if wordBound ≤ config.maxGenerations + 1 then .error .overflow
  else reserve (config.maxGenerations + 1) snapshotBytes

/-- Refuses an invalid configuration. -/
def checkConfig (config : Config) : Except Fault Unit :=
  match config.validate with
  | .ok () => .ok ()
  | .error e => .error (.invalidConfig e)

/-- Refuses an invalid configuration, and more objectives than there is room for in an archive. -/
def check {σ C : Type} [Chromosome C] (s : Search σ C) : Except Fault Unit := do
  checkConfig s.config
  claim ((Chromosome.storage C).archived s.objectives.size)

/-! ## Stopping -/

/-- Why a search ends before its budget is spent. -/
inductive Stop
  | cancelled
  | covered
deriving DecidableEq

variable {σ C : Type} [Chromosome C]

/-- Why generation `g` is not started, if it is not. -/
def stop? (s : Search σ C) (g : Nat) (archive : Archive C) : Option Stop :=
  if s.cancelled g then some .cancelled
  else if s.config.stopOnFullCoverage && archive.coveredTargets == archive.totalTargets then some .covered
  else none

/-- Up to `left` more generations after the first `done`: the progress, the number of generations in all, and why no
further one was started if there was budget for it. -/
def advance (s : Search σ C) (step : Nat → Progress σ C → Except Fault (Progress σ C)) :
    (left done : Nat) → Progress σ C → Except Fault (Progress σ C × Nat × Option Stop)
  | 0, done, p => .ok (p, done, none)
  | left + 1, done, p =>
    match s.stop? (done + 1) p.archive with
    | some stop => .ok (p, done, some stop)
    | none => do advance s step left (done + 1) (← step (done + 1) p)

/-! ## Generations -/

omit [Chromosome C] in
/-- Random words for a search. -/
def source (s : Search σ C) : Source := .ofSeed (s.config.seed.getD s.drawnSeed)

/-- The progress before anything has been run. -/
def blank (s : Search σ C) (policy : Policy) (active : List Nat) (state : σ) : Progress σ C :=
  { population := []
    archive := Archive.empty s.objectives.toList
    policy
    active
    history := []
    source := s.source
    state }

omit [Chromosome C] in
/-- A request to the collaborators. -/
def ask {α : Type} (request : Action σ α) (p : Progress σ C) : Except Fault (α × Progress σ C) := do
  let ((answer, state), source) ← request p.state p.source
  return (answer, { p with source, state })

/-- A batch is executed and offered to the archive; the executed individuals come with the progress. -/
def process (s : Search σ C) (batch : List C) (p : Progress σ C) : List C × Progress σ C :=
  let (batch, state) := s.collaborators.execute batch p.state
  (batch, { p with archive := p.archive.update batch, state })

/-- The progress with a snapshot of its archive after generation `g`, and that snapshot. -/
def capture (g : Nat) (p : Progress σ C) : Except Fault (Progress σ C × Snapshot) := do
  let snapshot ← p.archive.snapshot g p.active.length
  return ({ p with history := p.history ++ [snapshot] }, snapshot)

end Search

/-- What is reported at the end of a search. -/
structure Search.Result (C : Type) where
  /-- Distinct shortest individuals that cover objectives. -/
  tests : List C
  coveredTargets : Nat
  totalTargets : Nat
  /-- Covered objectives in percent. -/
  coverage : Float
  /-- Generations after the initial population. -/
  generations : Nat
  cancelled : Bool
  stoppedEarly : Bool
  history : List Snapshot

/-- The report on a search that has ended, and the state of its collaborators. -/
def Search.result {σ C : Type} [Chromosome C] (p : Progress σ C) (generations : Nat) (stop : Option Search.Stop) :
    Search.Result C × σ :=
  ({ tests := p.archive.tests
     coveredTargets := p.archive.coveredTargets
     totalTargets := p.archive.totalTargets
     coverage := p.archive.coverage
     generations
     cancelled := stop == some .cancelled
     stoppedEarly := stop == some .covered
     history := p.history }, p.state)

end CoverSearch
