import CoverSearch.Fault
import CoverSearch.Random.Keystream

/-!
# Random choices

* `Source` : where random words come from, a script or a keystream;
* `Draw` : a computation that takes words from a source and can fail;
* `Draw.index`, `Draw.upTo`, `Draw.between` : a uniform natural number, by scaling one or two words;
* `Draw.fraction`, `Draw.chance` : a double below a bound, and an event of given probability.
-/

namespace CoverSearch

/-- Where random words come from. -/
inductive Source
  /-- Words to hand out in turn, and how many have been. -/
  | script (words : List UInt64) (used : Nat)
  /-- A keystream: the counter of the next block, and the words left of the one before. -/
  | keyed (key : List UInt32) (counter : UInt64) (pending : List UInt32)

namespace Source

def ofWords (words : List UInt64) : Source := .script words 0

def ofSeed (seed : UInt64) : Source := .keyed (Keystream.keyOfSeed seed) 0 []

/-- The number of words taken from a script. -/
def used? : Source → Option Nat
  | .script _ used => some used
  | .keyed .. => none

end Source

/-- A computation with random choices. -/
abbrev Draw := StateT Source (Except Fault)

namespace Draw

def fail (e : Fault) : Draw α := fun _ => .error e

/-! ## Words -/

/-- The next 32 bits; of a scripted word the low half. -/
def word32 : Draw UInt32
  | .script [] _ => .error .wordsExhausted
  | .script (w :: words) used => .ok (w.toUInt32, .script words (used + 1))
  | .keyed key counter (w :: pending) => .ok (w, .keyed key counter pending)
  | .keyed key counter [] =>
    match Keystream.block key counter with
    | [] => .error .wordsExhausted
    | w :: pending => .ok (w, .keyed key (counter + 1) pending)

/-- The next 64 bits; of a keystream two words, the low half first. -/
def word64 : Draw UInt64
  | .script [] _ => .error .wordsExhausted
  | .script (w :: words) used => .ok (w, .script words (used + 1))
  | .keyed key counter pending => (do
    let low ← word32
    let high ← word32
    return low.toUInt64 ||| (high.toUInt64 <<< 32) : Draw UInt64) (.keyed key counter pending)

/-! ## Natural numbers -/

/-- A number below `r`, from words below `range` that is at least `r`: the high part of a word times `r`, with the carry
of a second product when the low part leaves room for one. -/
def scaled (range : Nat) (word : Draw Nat) (r : Nat) : Draw Nat := do
  let x ← word
  if r = range then return x
  let high := x * r / range
  let low := x * r % range
  if range - r < low then
    let y ← word
    return if range ≤ low + y * r / range then high + 1 else high
  else return high

/-- A number from `lo` to `hi`, both included; words of 32 bits are used while the written bound fits into one. -/
def ranged (lo hi bound : Nat) : Draw Nat :=
  if hi < lo then fail .emptyRange
  else if bound < UInt32.size then do
    return lo + (← scaled UInt32.size (do return (← word32).toNat) (hi - lo + 1))
  else do
    return lo + (← scaled UInt64.size (do return (← word64).toNat) (hi - lo + 1))

/-- A number from `lo` to `hi`, both included. -/
def between (lo hi : Nat) : Draw Nat := ranged lo hi hi

/-- A number up to `n`. -/
def upTo (n : Nat) : Draw Nat := between 0 n

/-- A number below `n`. -/
def index (n : Nat) : Draw Nat := if n = 0 then fail .emptyRange else ranged 0 (n - 1) n

/-! ## Doubles and events -/

/-- The bits of `1.0`, with an empty fraction. -/
def oneBits : UInt64 := 0x3FF0000000000000

/-- A double in `[0, bound)`: the high 52 bits of a word as the fraction of a double in `[1, 2)`. -/
def fraction (bound : Float) : Draw Float := do
  return (Float.ofBits (oneBits ||| ((← word64) >>> 12)) - 1) * bound

/-- An event of probability `p`; a certain one takes no word. -/
def chance (p : Float) : Draw Bool :=
  if p == 1 then pure true
  else if 0 ≤ p && p < 1 then do return (← word64) < (p * 18446744073709551616).toUInt64
  else fail (.notAProbability p)

end Draw

end CoverSearch
