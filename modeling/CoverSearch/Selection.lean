import CoverSearch.Random

/-!
# Parent selection

Populations are ordered best first, so a lesser index is a better individual.

* `Selection.rank` : linear ranking, the weight of an individual falling from `bias` to `2 - bias`;
* `Selection.tournament` : the best of a number of uniform picks;
* `Selection.select` : the index of the selected individual.
-/

namespace CoverSearch

/-- How parents are selected. -/
inductive Selection
  | rank (bias : Float)
  | tournament (size : Nat)

namespace Selection

instance : Inhabited Selection := ⟨.rank 1.7⟩

protected def beq : Selection → Selection → Bool
  | .rank a, .rank b => a == b
  | .tournament a, .tournament b => a == b
  | _, _ => false

instance : BEq Selection := ⟨Selection.beq⟩

/-- The least of `best` and `n` uniform picks. -/
def leastPick (size : Nat) : (n best : Nat) → Draw Nat
  | 0, best => pure best
  | n + 1, best => do leastPick size n (min best (← Draw.index size))

/-- The first of `left` individuals from `i` on at which the sum of the weights, `total` before `i`, exceeds the
threshold. -/
def firstAbove? (bias step threshold : Float) : (left i : Nat) → (total : Float) → Option Nat
  | 0, _, _ => none
  | left + 1, i, total =>
    let total := total + (bias - step * Float.ofNat i)
    if threshold < total then some i else firstAbove? bias step threshold left (i + 1) total

/-- A pick by linear ranking; the last individual if rounding keeps the weights below the threshold. -/
def rankPick (size : Nat) (bias : Float) : Draw Nat := do
  let bias := clamp 1 2 bias
  let step := 2 * (bias - 1) / Float.ofNat (size - 1)
  let threshold ← Draw.fraction (Float.ofNat size)
  return (firstAbove? bias step threshold size 0 0).getD (size - 1)

/-- The index of a selected individual among `size`. -/
def select (s : Selection) (size : Nat) : Draw Nat :=
  if size < 2 then Draw.fail (.tooFewToSelect size)
  else
    match s with
    | .rank bias => rankPick size bias
    | .tournament n => do leastPick size (n - 1) (← Draw.index size)

end Selection

end CoverSearch
