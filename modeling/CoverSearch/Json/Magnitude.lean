import CoverSearch.Json

/-!
# The double of a numeral

The digits are gathered in a word of 64 bits as far as they fit: further digits of the whole part count as
a power of ten, further digits of the fraction are dropped. The word is then rounded to a double and scaled
once by a power of ten, so the result can differ from the nearest double in its last bits.

* `Json.Numeral.float?` : the double, unless it is infinite;
* `Json.decodable` : every string and number inside a value can be read, and it nests within bounds.
-/

namespace CoverSearch.Json

/-! ## Digits -/

/-- The digits gathered so far, standing for `word * 10 ^ exponent`. -/
structure Gathered where
  word : Nat
  exponent : Int
deriving DecidableEq

/-- The value of a decimal digit. -/
def digitValue (c : Char) : Nat := c.toNat - '0'.toNat

/-- The digits of the whole part; those after the first that does not fit count as powers of ten. -/
def gatherWhole (word : Nat) : List Char → Gathered
  | [] => ⟨word, 0⟩
  | c :: rest =>
    if word * 10 + digitValue c < UInt64.size then gatherWhole (word * 10 + digitValue c) rest
    else ⟨word, rest.length + 1⟩

/-- The digits of the fraction; those from the first that does not fit are dropped. -/
def gatherFraction (g : Gathered) : List Char → Gathered
  | [] => g
  | c :: rest =>
    if g.word * 10 + digitValue c < UInt64.size then
      gatherFraction ⟨g.word * 10 + digitValue c, g.exponent - 1⟩ rest
    else g

/-! ## Scaling -/

/-- Largest exponent whose power of ten is a finite double. -/
def maxPower : Nat := 308

/-- The double nearest to `10 ^ e`. -/
def tenPower (e : Nat) : Float := Float.ofScientific 1 false e

/-- A double divided by `10 ^ e`, in steps that each divide by a finite double. -/
def scaleDown (x : Float) (e : Nat) : Float :=
  if e ≤ maxPower then x / tenPower e
  else if x == 0 then x
  else scaleDown (x / tenPower maxPower) (e - maxPower)
termination_by e
decreasing_by simp only [maxPower] at *; omega

/-- A double multiplied by `10 ^ e`, if the product is finite. -/
def scaleUp? (x : Float) (e : Nat) : Option Float :=
  if e ≤ maxPower then
    let y := x * tenPower e
    if y.isInf then none else some y
  else if x == 0 then some x
  else none

/-- The double of gathered digits, if it is finite. -/
def Gathered.float? (g : Gathered) : Option Float :=
  let x := Float.ofNat g.word
  match g.exponent with
  | .ofNat e => scaleUp? x e
  | .negSucc e => some (scaleDown x (e + 1))

/-- Exponents are kept within 32 bits, sign included. -/
def exponentBound : Int := 0x80000000

/-- An exponent moved into 32 bits. -/
def saturate (e : Int) : Int := max (-exponentBound) (min e (exponentBound - 1))

/-- The double of gathered digits with a written exponent, if it is finite. A written exponent beyond 32 bits makes
zero, or something infinite where digits other than zero are scaled up. -/
def Gathered.scaled? (g : Gathered) (negative : Bool) (written : List Char) : Option Float :=
  let e := Nat.ofDigitChars 10 written 0
  if e < exponentBound.toNat then
    Gathered.float? ⟨g.word, saturate (if negative then g.exponent - e else g.exponent + e)⟩
  else if g.word != 0 && !negative then none
  else some 0

/-- The double of a numeral, unless it is infinite. -/
def Numeral.float? (n : Numeral) : Option Float :=
  let g := gatherWhole 0 n.whole
  let magnitude :=
    match n.fraction, n.exponent with
    | none, none => g.float?
    | some fraction, none => (gatherFraction g fraction).float?
    | none, some (negative, written) => g.scaled? negative written
    | some fraction, some (negative, written) => (gatherFraction g fraction).scaled? negative written
  magnitude.map fun x => if n.negative then -x else x

/-! ## Values that can be read in full -/

mutual

/-- Every string and number of a value can be read, and at most `room` arrays and objects are open at once. -/
def decodable (room : Nat) : Json → Bool
  | .null | .bool _ => true
  | .number n => n.float?.isSome
  | .string s => s.decode?.isSome
  | .array items => room != 0 && itemsDecodable (room - 1) items
  | .object fields => room != 0 && fieldsDecodable (room - 1) fields

def itemsDecodable (room : Nat) : List Json → Bool
  | [] => true
  | item :: rest => decodable room item && itemsDecodable room rest

def fieldsDecodable (room : Nat) : List (Text × Json) → Bool
  | [] => true
  | (key, item) :: rest => key.decode?.isSome && decodable room item && fieldsDecodable room rest

end

end CoverSearch.Json
