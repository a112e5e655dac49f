/-!
# JSON values as they are written

A value keeps what its text says: escapes of 16-bit units inside strings and the digits of numbers. Which
strings are text and which numbers are in range is decided by whoever reads them.

* `Json.Text`, `Json.Text.decode?` : a string with its escapes, and its characters if the escapes pair up;
* `Json.Numeral`, `Json.Numeral.word?` : a number with its digits, and its value as a 64-bit word;
* `Json` : the values.
-/

namespace CoverSearch

namespace Json

/-! ## Strings -/

/-- One written item of a string: a character, or a 16-bit unit given by four hexadecimal digits. -/
inductive Piece
  | plain (c : Char)
  | code (unit : Nat)
deriving DecidableEq

abbrev Text := List Piece

/-- The first half of a surrogate pair. -/
def isHighSurrogate (unit : Nat) : Bool := 0xD800 ≤ unit && unit < 0xDC00

/-- The second half of a surrogate pair. -/
def isLowSurrogate (unit : Nat) : Bool := 0xDC00 ≤ unit && unit < 0xE000

/-- The character of a surrogate pair. -/
def pairedChar (high low : Nat) : Char := Char.ofNat (0x10000 + (high - 0xD800) * 0x400 + (low - 0xDC00))

/-- The characters of a string, unless a surrogate stands alone. -/
def Text.decode? : Text → Option (List Char)
  | [] => some []
  | .plain c :: rest => (decode? rest).map (c :: ·)
  | .code high :: .code low :: rest =>
    if isHighSurrogate high then
      if isLowSurrogate low then (decode? rest).map (pairedChar high low :: ·) else none
    else if isLowSurrogate high then none
    else (decode? (.code low :: rest)).map (Char.ofNat high :: ·)
  | .code unit :: rest =>
    if isHighSurrogate unit || isLowSurrogate unit then none
    else (decode? rest).map (Char.ofNat unit :: ·)

/-! ## Numbers -/

/-- A number by its digits: the whole part, the fraction, and the exponent with its minus sign. -/
structure Numeral where
  negative : Bool := false
  whole : List Char
  fraction : Option (List Char) := none
  exponent : Option (Bool × List Char) := none
deriving DecidableEq

/-- The numeral of a natural number. -/
def Numeral.ofNat (n : Nat) : Numeral := { whole := Nat.toDigits 10 n }

/-- The value of a numeral written as a plain natural number below `2 ^ 64`. -/
def Numeral.word? (n : Numeral) : Option UInt64 :=
  match n with
  | { negative := false, whole, fraction := none, exponent := none } =>
    let value := Nat.ofDigitChars 10 whole 0
    if value < UInt64.size then some (UInt64.ofNat value) else none
  | _ => none

end Json

/-! ## Values -/

/-- A JSON value; the fields of an object in written order, repeats kept. -/
inductive Json
  | null
  | bool (b : Bool)
  | number (n : Json.Numeral)
  | string (s : Json.Text)
  | array (items : List Json)
  | object (fields : List (Json.Text × Json))

end CoverSearch
