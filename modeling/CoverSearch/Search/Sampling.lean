import CoverSearch.Search

/-!
# Random search

Every generation is a batch of fresh individuals, offered to the archive. Nothing is ranked or bred, and no
listener is told.

* `Search.sampleBatch` : one generation;
* `Search.sample` : a whole search.
-/

namespace CoverSearch.Search

variable {σ C : Type} [Chromosome C]

/-- Generation `g`: a batch of fresh individuals. -/
def sampleBatch (s : Search σ C) (g : Nat) (p : Progress σ C) : Except Fault (Progress σ C) := do
  let (batch, p) ← ask (s.collaborators.generateMany s.config.populationSize) p
  let (_, p) := s.process batch p
  let (p, _) ← capture g p
  return p

/-- A whole random search, in which all objectives count as active. -/
def sample (s : Search σ C) (state : σ) : Except Fault (Result C × σ) := do
  s.check
  checkHistory s.config
  let p ← s.sampleBatch 0 (s.blank .all (List.range s.objectives.size) state)
  let (p, generations, stop) ← s.advance s.sampleBatch s.config.maxGenerations 0 p
  return result p generations stop

end CoverSearch.Search
