import CoverSearch.Json.Token

/-!
# Writing JSON

* `Json.Text.ofString` : a string with the escapes that it needs;
* `Json.tokens` : the tokens of a value;
* `Json.render` : the text of a value, without blanks.
-/

namespace CoverSearch.Json

/-! ## Strings and numbers -/

/-- The pieces of a string: control characters as units, all others as they are. -/
def Text.ofString (s : String) : Text :=
  s.toList.map fun c => if c.toNat < 0x20 then .code c.toNat else .plain c

/-- The four hexadecimal digits of a unit. -/
def hexDigits (unit : Nat) : List Char :=
  [unit / 0x1000 % 16, unit / 0x100 % 16, unit / 0x10 % 16, unit % 16].map Nat.digitChar

/-- The written form of a piece; quotes and backslashes are escaped. -/
def Piece.render : Piece → List Char
  | .plain c => if c == '"' || c == '\\' then ['\\', c] else [c]
  | .code unit => '\\' :: 'u' :: hexDigits unit

def Text.render (s : Text) : List Char := '"' :: s.flatMap Piece.render ++ ['"']

def Numeral.renderFraction : Option (List Char) → List Char
  | none => []
  | some ds => '.' :: ds

def Numeral.renderExponent : Option (Bool × List Char) → List Char
  | none => []
  | some (negative, ds) => 'e' :: (if negative then ['-'] else []) ++ ds

def Numeral.render (n : Numeral) : List Char :=
  (if n.negative then ['-'] else []) ++ n.whole ++ renderFraction n.fraction ++ renderExponent n.exponent

/-! ## Values -/

/-- The written form of a token. -/
def Token.render : Token → List Char
  | .openArray => ['[']
  | .closeArray => [']']
  | .openObject => ['\x7b']
  | .closeObject => ['\x7d']
  | .comma => [',']
  | .colon => [':']
  | .null => ['n', 'u', 'l', 'l']
  | .bool true => ['t', 'r', 'u', 'e']
  | .bool false => ['f', 'a', 'l', 's', 'e']
  | .number n => n.render
  | .string s => s.render

mutual

/-- The tokens of a value. -/
def tokens : Json → List Token
  | .null => [.null]
  | .bool b => [.bool b]
  | .number n => [.number n]
  | .string s => [.string s]
  | .array [] => [.openArray, .closeArray]
  | .array (item :: rest) => .openArray :: (tokens item ++ itemTokens rest)
  | .object [] => [.openObject, .closeObject]
  | .object ((key, v) :: rest) => .openObject :: .string key :: .colon :: (tokens v ++ fieldTokens rest)

/-- The tokens of the items after the first, up to the closing bracket. -/
def itemTokens : List Json → List Token
  | [] => [.closeArray]
  | item :: rest => .comma :: (tokens item ++ itemTokens rest)

/-- The tokens of the fields after the first, up to the closing brace. -/
def fieldTokens : List (Text × Json) → List Token
  | [] => [.closeObject]
  | (key, v) :: rest => .comma :: .string key :: .colon :: (tokens v ++ fieldTokens rest)

end

/-- The text of a value, without blanks. -/
def render (v : Json) : String := String.ofList (v.tokens.flatMap Token.render)

/-! ## Values of a known shape -/

def ofWord (n : UInt64) : Json := .number (.ofNat n.toNat)

def ofString (s : String) : Json := .string (Text.ofString s)

/-- An object with the given fields. -/
def ofFields (fields : List (String × Json)) : Json :=
  .object (fields.map fun (name, v) => (Text.ofString name, v))

end CoverSearch.Json
