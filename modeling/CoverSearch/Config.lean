import CoverSearch.Breeder

/-!
# Search configurations

* `Config` : sizes, rates and stopping rules of a search, with the balanced defaults;
* `Config.fast`, `Config.thorough`, `Config.auto` : presets;
* `Config.validate` : the first rule that a configuration breaks.
-/

namespace CoverSearch

/-- The settings of a search. -/
structure Config where
  populationSize : Nat := 50
  maxGenerations : Nat := 100
  selection : Selection := default
  crossoverRate : Float := 0.8
  mutationRate : Float := 1
  stopOnFullCoverage : Bool := false
  /-- Whether fitness rows may be computed in parallel, which changes no result. -/
  parallel : Bool := false
  seed : Option UInt64 := none

namespace Config

instance : Inhabited Config := ⟨{}⟩

/-! ## Presets -/

def fast : Config := { populationSize := 20, maxGenerations := 30 }

def balanced : Config := {}

def thorough : Config := { populationSize := 100, maxGenerations := 300, selection := .tournament 3 }

/-- A preset by the number of targets. -/
def auto (targetCount : Nat) : Config :=
  if targetCount < 50 then fast else if targetCount < 500 then balanced else thorough

/-! ## Settings -/

/-- The crossover rate moved into `[0, 1]`. -/
def withCrossoverRate (c : Config) (rate : Float) : Config := { c with crossoverRate := clamp 0 1 rate }

/-- The mutation rate moved into `[0, 1]`. -/
def withMutationRate (c : Config) (rate : Float) : Config := { c with mutationRate := clamp 0 1 rate }

/-- The breeder with the selection and rates of a configuration. -/
def breeder (c : Config) : Breeder :=
  (Breeder.new c.selection c.crossoverRate).withMutationRate c.mutationRate

/-- The same settings; a NaN equals none. -/
protected def beq (a b : Config) : Bool :=
  a.populationSize == b.populationSize && a.maxGenerations == b.maxGenerations && a.selection == b.selection &&
    a.crossoverRate == b.crossoverRate && a.mutationRate == b.mutationRate &&
    a.stopOnFullCoverage == b.stopOnFullCoverage && a.parallel == b.parallel && a.seed == b.seed

instance : BEq Config := ⟨Config.beq⟩

/-- The first rule that a selection breaks. -/
def checkSelection : Selection → Except ConfigError Unit
  | .rank bias => if within 1 2 bias then .ok () else .error .rankBias
  | .tournament 0 => .error .tournamentSize
  | .tournament _ => .ok ()

/-- The first rule that a configuration breaks. -/
def validate (c : Config) : Except ConfigError Unit :=
  if c.populationSize < 2 then .error .populationSize
  else if c.maxGenerations = 0 then .error .maxGenerations
  else if !within 0 1 c.crossoverRate then .error .crossoverRate
  else if !within 0 1 c.mutationRate then .error .mutationRate
  else checkSelection c.selection

end Config

end CoverSearch
