import CoverSearch.Search

/-!
# Evolutionary search

A generation breeds offspring of the population, runs them, offers them to the archive, and keeps the best of population
and offspring together, ranked on the active objectives.

* `Search.takeOut`, `Search.survive` : survivors are taken out of their slots;
* `Search.start`, `Search.step` : the initial population, and one generation;
* `Search.evolve` : a whole search under a policy that chooses the ranked objectives.
-/

namespace CoverSearch.Search

variable {σ C : Type} [Chromosome C]

omit [Chromosome C] in
/-- The individuals in the slots at some positions, in that order. Each is taken out of its slot, and an empty slot
gives none. -/
def takeOut (slots : Array (Option C)) : (order : List Nat) → List C
  | [] => []
  | i :: order =>
    let taken := slots[i]?.join
    taken.toList ++ takeOut (slots.setIfInBounds i none) order

/-- The `size` individuals that survive on the ranked objectives, best first. -/
def survive (objectives : Array (Objective C)) (active : List Nat) (size : Nat) (population : List C) :
    Except Fault (List C) := do
  let m ← Matrix.evaluate population objectives active
  return takeOut (population.map some).toArray (survivors pareto m size)

/-- The ranked objectives are chosen anew after a population has been run, and the best of it survive. -/
def rerank (s : Search σ C) (population : List C) (p : Progress σ C) : Except Fault (Progress σ C) := do
  let (policy, active, _) ← p.policy.update s.objectives population p.active
  let population ← survive s.objectives active s.config.populationSize population
  return { p with population, policy, active }

/-- The end of generation `g`: a snapshot, of which every listener is told. -/
def announce (s : Search σ C) (g : Nat) (p : Progress σ C) : Except Fault (Progress σ C) := do
  let (p, snapshot) ← capture g p
  return { p with state := s.collaborators.notify snapshot p.state }

/-- The initial population, executed and ranked. -/
def start (s : Search σ C) (policy : Policy) (state : σ) : Except Fault (Progress σ C) := do
  let (population, p) ← ask (s.collaborators.generateMany s.config.populationSize) (s.blank policy [] state)
  let (population, p) := s.process population p
  let (policy, active) ← policy.initial s.objectives.size
  let p ← s.rerank population { p with policy, active }
  claim ((Chromosome.storage C).ranked population.length)
  checkHistory s.config
  s.announce 0 p

/-- Generation `g`. -/
def step (s : Search σ C) (g : Nat) (p : Progress σ C) : Except Fault (Progress σ C) := do
  let (offspring, q) ← ask (s.collaborators.offspring p.population s.config.populationSize) p
  let (offspring, q) := s.process offspring q
  let population := p.population ++ offspring
  claim ((Chromosome.storage C).joined population.length)
  let q ← s.rerank population q
  claim ((Chromosome.storage C).ranked population.length)
  s.announce g q

/-- A whole search on the objectives that a policy chooses. -/
def evolve (s : Search σ C) (policy : Policy) (state : σ) : Except Fault (Result C × σ) := do
  s.check
  let p ← s.start policy state
  let (p, generations, stop) ← s.advance s.step s.config.maxGenerations 0 p
  return result p generations stop

/-- A search that ranks every objective. -/
def mosa (s : Search σ C) (state : σ) : Except Fault (Result C × σ) := s.evolve .all state

/-- A search that ranks the objectives on a frontier. -/
def dynaMosa (s : Search σ C) (frontier : Frontier) (state : σ) : Except Fault (Result C × σ) :=
  s.evolve (.dynamic frontier) state

end CoverSearch.Search
