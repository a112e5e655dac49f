/-!
# Shortest decimal text of a double

A finite double is `m * 2 ^ q`. The reals that round to it form an interval, with its ends when `m` is
even. The text shows the fewest digits with which some decimal lies in that interval, and of those
decimals the one nearest to the double, the larger one of two equally near.

* `Decimal` : `digits * 10 ^ exponent`;
* `Decimal.shortest` : the decimal shown for a positive finite double;
* `Decimal.Style`, `Decimal.render` : positional text between two powers of ten, else with an exponent.
-/

namespace CoverSearch

/-- The number `digits * 10 ^ exponent`. -/
structure Decimal where
  digits : Nat
  exponent : Int
deriving DecidableEq

namespace Decimal

/-! ## Digits -/

/-- A positive finite double as `significand * 2 ^ exponent`, with the gap below it. -/
structure Binary where
  significand : Nat
  exponent : Int
  /-- The gap to the next smaller double is half the gap to the next larger one. -/
  narrowBelow : Bool

/-- The leading bit of a significand, which the bits of a double leave out. -/
def leadingBit : Nat := 0x10000000000000

def Binary.ofFloat (x : Float) : Binary :=
  let bits := x.toBits.toNat
  let fraction : Nat := bits % leadingBit
  let biased : Nat := bits / leadingBit % 2048
  if biased = 0 then ⟨fraction, -1074, false⟩
  else ⟨fraction + leadingBit, (biased : Int) - 1075, fraction = 0 && 1 < biased⟩

/-- The number of decimal digits of `n`, none for zero. -/
def digitCount (n : Nat) : Nat := if n = 0 then 0 else (Nat.toDigits 10 n).length

/-- The exponent of the leading decimal digit of `num / den`. -/
def leadingExponent (num den : Nat) : Int :=
  if den ≤ num then (digitCount (num / den) : Int) - 1
  else -(digitCount ((den + num - 1) / num - 1) : Int)

/-- The decimal of `n` digits that lies in the interval of `b`, the nearest to `b` if there are two. -/
def ofDigitCount? (b : Binary) (leading : Int) (n : Nat) : Option Decimal :=
  let k := leading - n + 1
  let quarter := b.exponent - 2
  let unit := Nat.pow 2 quarter.toNat * Nat.pow 10 (-k).toNat
  let step := Nat.pow 10 k.toNat * Nat.pow 2 (-quarter).toNat
  let value := 4 * b.significand * unit
  let low := (4 * b.significand - if b.narrowBelow then 1 else 2) * unit
  let high := (4 * b.significand + 2) * unit
  let inside (c : Nat) : Bool :=
    if b.significand % 2 = 0 then low ≤ c * step && c * step ≤ high
    else low < c * step && c * step < high
  let below := value / step
  match inside below, inside (below + 1) with
  | true, true => some ⟨if value - below * step < (below + 1) * step - value then below else below + 1, k⟩
  | true, false => some ⟨below, k⟩
  | false, true => some ⟨below + 1, k⟩
  | false, false => none

/-- The shown decimal of a positive finite double; seventeen digits always suffice. -/
def shortest (x : Float) : Decimal :=
  let b := Binary.ofFloat x
  let leading := leadingExponent (b.significand * Nat.pow 2 b.exponent.toNat) (Nat.pow 2 (-b.exponent).toNat)
  ((List.range 17).findSome? fun n => ofDigitCount? b leading (n + 1)).getD ⟨0, 0⟩

/-! ## Text -/

/-- Where positional text is used: for a leading digit at `10 ^ e` with `least ≤ e < bound`. -/
structure Style where
  least : Int
  bound : Int

def zeros (n : Nat) : List Char := List.replicate n '0'

/-- The text of a decimal, with at least one digit after the point when positional. -/
def layout (style : Style) (d : Decimal) : List Char :=
  let written := Nat.toDigits 10 d.digits
  let leading := d.exponent + written.length - 1
  let shown := (written.reverse.dropWhile (· == '0')).reverse
  if style.least ≤ leading && leading < style.bound then
    if leading < 0 then '0' :: '.' :: zeros (-leading - 1).toNat ++ shown
    else
      let places := leading.toNat + 1
      let tail := shown.drop places
      shown.take places ++ zeros (places - shown.length) ++ '.' :: (if tail.isEmpty then ['0'] else tail)
  else
    let tail := shown.drop 1
    shown.take 1 ++ (if tail.isEmpty then [] else '.' :: tail) ++ 'e' :: (toString leading).toList

/-- The text of a double: `NaN`, `inf`, or the shortest decimal, with a minus sign where the sign bit is set. -/
def render (style : Style) (x : Float) : String :=
  if x.isNaN then "NaN"
  else
    let magnitude := if x.toBits < 0x8000000000000000 then x else -x
    let text :=
      if magnitude.isInf then ['i', 'n', 'f']
      else if magnitude == 0 then ['0', '.', '0']
      else layout style (shortest magnitude)
    String.ofList (if x.toBits < 0x8000000000000000 then text else '-' :: text)

end Decimal

end CoverSearch
