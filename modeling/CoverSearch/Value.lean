/-!
# Distances and fitness values

Branch distances and fitness values are doubles; smaller is better and zero is covered.

* `maxFitness` : the largest finite double, the fitness of a target that nothing approaches;
* `normalize` : `d / (d + 1)`, from `[0, ∞)` into `[0, 1)` on the reals;
* `least` : the smaller of two doubles, a number before a NaN;
* `clamp` : a double moved into an interval, a NaN kept;
* `wordBound`, `total` : the bound of counters, and the sum of counts.
-/

namespace CoverSearch

/-- The largest finite double. -/
def maxFitness : Float := Float.ofBits 0x7FEFFFFFFFFFFFFF

/-- A branch distance scaled below one hop, so that the number of hops decides first. -/
def normalize (distance : Float) : Float := distance / (distance + 1)

/-- The smaller of two doubles; of a NaN and a number the number. -/
def least (a b : Float) : Float := if b < a || a.isNaN then b else a

/-- The double of `[lo, hi]` closest to `x`; a NaN stays a NaN. -/
def clamp (lo hi x : Float) : Float := if x < lo then lo else if hi < x then hi else x

/-- Membership in `[lo, hi]`, which a NaN never has. -/
def within (lo hi x : Float) : Bool := lo ≤ x && x ≤ hi

/-! ## Counts -/

/-- The number of words of 64 bits, the bound of every counter. -/
def wordBound : Nat := UInt64.size

/-- The sum of some counts. -/
def total (counts : List Nat) : Nat := counts.foldl (· + ·) 0

theorem total_cons (n : Nat) (counts : List Nat) : total (n :: counts) = n + total counts := by
  rw [total, total, ← List.sum_eq_foldl, ← List.sum_eq_foldl, List.sum_cons]

end CoverSearch
