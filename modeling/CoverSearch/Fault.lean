import CoverSearch.Target
import CoverSearch.Value
import CoverSearch.Decimal

/-!
# What goes wrong

* `InputError` : an analysis record that cannot be used, with the cause;
* `ConfigError` : a search configuration that is refused;
* `Fault` : a request outside the domain of an operation, which ends the operation;
* `claim`, `reserve` : the room that a list needs before it is made, and when there is some.

The first three have one `message` each; a `Fault` about sizes, sums or an empty source of words has none.
-/

namespace CoverSearch

/-! ## Records -/

/-- Why a file could not be read. -/
inductive ReadFailure
  /-- There is no file of that name. -/
  | notFound
  /-- A name that is followed by others is not that of a directory. -/
  | notDirectory
  /-- There are too many links on the way. -/
  | linkLoop
  /-- The path has a null character. -/
  | invalidInput
  /-- The path or a name in it is too long. -/
  | nameTooLong
  /-- The bytes of the file are no UTF-8 text. -/
  | invalidData
deriving DecidableEq

def ReadFailure.name : ReadFailure → String
  | notFound => "NotFound"
  | notDirectory => "NotADirectory"
  | linkLoop => "FilesystemLoop"
  | invalidInput => "InvalidInput"
  | nameTooLong => "InvalidFilename"
  | invalidData => "InvalidData"

/-- Why a control dependence graph could not be built from its input. -/
inductive InputError
  | malformed (context : String)
  | edgeOutOfBounds (unit : String) (controller dependent : UInt64) (nodes : Nat)
  | duplicateBlock (unit : String) (block : UInt64)
  | missingRoot (unit : String)
  | unreachable (unit : String) (block : UInt64)
  | duplicateUnit (unit : String)
  | unreadable (path : String) (cause : ReadFailure)
deriving DecidableEq

def InputError.message : InputError → String
  | malformed context => s!"malformed {context}"
  | edgeOutOfBounds unit controller dependent nodes =>
    s!"edge {controller} -> {dependent} in `{unit}` is out of bounds ({nodes} nodes)"
  | duplicateBlock unit block => s!"block {block} appears more than once in `{unit}`"
  | missingRoot unit => s!"`{unit}` has no root sentinel node"
  | unreachable unit block => s!"block {block} in `{unit}` is unreachable from the root"
  | duplicateUnit unit => s!"code unit `{unit}` was registered twice"
  | unreadable path cause => s!"failed to read `{path}`: " ++ cause.name

/-! ## Operations -/

/-- The first rule that a search configuration breaks. -/
inductive ConfigError
  | populationSize
  | maxGenerations
  | crossoverRate
  | mutationRate
  | rankBias
  | tournamentSize
deriving DecidableEq

def ConfigError.message : ConfigError → String
  | populationSize => "population_size must be at least 2"
  | maxGenerations => "max_generations must be at least 1"
  | crossoverRate => "crossover_rate must be within [0, 1]"
  | mutationRate => "mutation_rate must be within [0, 1]"
  | rankBias => "rank selection bias must be within [1, 2]"
  | tournamentSize => "tournament size must be at least 1"

/-- Why an operation ended without an answer. -/
inductive Fault
  | unknownTarget (target : Target) (unit : String)
  | unknownUnit (unit : String)
  | raggedRows
  | tooFewToSelect (size : Nat)
  | notAProbability (p : Float)
  | emptyRange
  | invalidConfig (cause : ConfigError)
  /-- A list that would not fit into the address space. -/
  | capacity
  /-- A position outside its list. -/
  | outOfRange
  /-- A count beyond 64 bits. -/
  | overflow
  /-- A scripted source of random words has none left. -/
  | wordsExhausted

/-- A refused probability is written positionally from `0.0001` up to below `10 ^ 16`. -/
def probabilityStyle : Decimal.Style := ⟨-4, 16⟩

def Fault.message : Fault → Option String
  | unknownTarget target unit => some s!"target {target} is not part of the CDG of {unit}"
  | unknownUnit unit => some s!"no CDG registered for code unit {unit}"
  | raggedRows => some "all fitness rows must have the same length"
  | tooFewToSelect size => some s!"selection requires at least 2 individuals, got {size}"
  | notAProbability p => some ("p=" ++ Decimal.render probabilityStyle p ++ " is outside range [0.0, 1.0]")
  | emptyRange => some "cannot sample empty range"
  | invalidConfig cause => some ("invalid SearchConfig: \"" ++ cause.message ++ "\"")
  | capacity => some "capacity overflow"
  | outOfRange | overflow | wordsExhausted => none

/-- Room for a list of so many bytes, for which there is half of the address space. -/
def claim (bytes : Nat) : Except Fault Unit := if bytes < wordBound / 2 then .ok () else .error .capacity

theorem claim_eq_ok {bytes : Nat} (h : bytes < wordBound / 2) : claim bytes = .ok () := if_pos h

theorem claim_eq_error {bytes : Nat} (h : ¬ bytes < wordBound / 2) : claim bytes = .error .capacity := if_neg h

/-- Room for `count` items of `bytes` bytes each. -/
def reserve (count bytes : Nat) : Except Fault Unit := claim (count * bytes)

theorem reserve_eq_ok {count bytes : Nat} (h : count * bytes < wordBound / 2) : reserve count bytes = .ok () :=
  claim_eq_ok h

theorem reserve_eq_error {count bytes : Nat} (h : ¬ count * bytes < wordBound / 2) :
    reserve count bytes = .error .capacity := claim_eq_error h

end CoverSearch
