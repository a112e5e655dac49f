import CoverSearch.Json

/-!
# The tokens of a JSON text

* `Json.Token.next?` : the token at the start of a text and the text after it, which is shorter
  (`Json.Token.length_next?`);
* `Json.tokens?` : all tokens of a text, with blanks between them left out.
-/

namespace CoverSearch.Json

inductive Token
  | openArray
  | closeArray
  | openObject
  | closeObject
  | comma
  | colon
  | null
  | bool (b : Bool)
  | number (n : Numeral)
  | string (s : Text)
deriving DecidableEq

/-- Space, tab, line feed and carriage return. -/
def isBlank (c : Char) : Bool := c == ' ' || c == '\t' || c == '\n' || c == '\r'

/-! ## Strings -/

def hexValue? (c : Char) : Option Nat :=
  if '0' ≤ c ∧ c ≤ '9' then some (c.toNat - '0'.toNat)
  else if 'a' ≤ c ∧ c ≤ 'f' then some (c.toNat - 'a'.toNat + 10)
  else if 'A' ≤ c ∧ c ≤ 'F' then some (c.toNat - 'A'.toNat + 10)
  else none

/-- The 16-bit unit of four hexadecimal digits. -/
def hexUnit? (a b c d : Char) : Option Nat := do
  return (((← hexValue? a) * 16 + (← hexValue? b)) * 16 + (← hexValue? c)) * 16 + (← hexValue? d)

/-- The character that a letter after a backslash stands for. -/
def escaped? : Char → Option Char
  | '"' => some '"'
  | '\\' => some '\\'
  | '/' => some '/'
  | 'b' => some '\x08'
  | 'f' => some '\x0c'
  | 'n' => some '\n'
  | 'r' => some '\r'
  | 't' => some '\t'
  | _ => none

/-- The rest of a string up to its closing quote, after the pieces `done` (last first). -/
def scanText (done : Text) : List Char → Option (Text × List Char)
  | [] => none
  | '"' :: rest => some (done.reverse, rest)
  | '\\' :: 'u' :: a :: b :: c :: d :: rest =>
    match hexUnit? a b c d with
    | some unit => scanText (.code unit :: done) rest
    | none => none
  | '\\' :: letter :: rest =>
    match escaped? letter with
    | some c => scanText (.plain c :: done) rest
    | none => none
  | c :: rest => if c == '\\' || c.toNat < 0x20 then none else scanText (.plain c :: done) rest

theorem length_scanText {done : Text} {cs : List Char} {s : Text} {rest : List Char}
    (h : scanText done cs = some (s, rest)) : rest.length < cs.length := by
  fun_induction scanText done cs <;> simp_all <;> omega

/-! ## Numbers -/

/-- The digits at the start of a text, and the text after them. -/
def digits (cs : List Char) : List Char × List Char :=
  (cs.takeWhile Char.isDigit, cs.dropWhile Char.isDigit)

theorem length_digits (cs : List Char) : (digits cs).2.length ≤ cs.length :=
  (List.dropWhile_sublist _).length_le

/-- The fraction at the start of a text; a point needs a digit after it. -/
def scanFraction? : List Char → Option (Option (List Char) × List Char)
  | '.' :: rest =>
    let (ds, rest) := digits rest
    if ds.isEmpty then none else some (some ds, rest)
  | cs => some (none, cs)

/-- A sign, and the text after it. -/
def scanSign : List Char → Bool × List Char
  | '-' :: rest => (true, rest)
  | '+' :: rest => (false, rest)
  | cs => (false, cs)

/-- The exponent at the start of a text; its mark needs a digit after it. -/
def scanExponent? : List Char → Option (Option (Bool × List Char) × List Char)
  | [] => some (none, [])
  | c :: rest =>
    if c == 'e' || c == 'E' then
      let (negative, rest) := scanSign rest
      let (ds, rest) := digits rest
      if ds.isEmpty then none else some (some (negative, ds), rest)
    else some (none, c :: rest)

/-- The number at the start of a text, without its sign; a leading zero stands alone. -/
def scanMagnitude? (negative : Bool) (cs : List Char) : Option (Numeral × List Char) :=
  let (whole, rest) := digits cs
  if whole.isEmpty || whole.head? == some '0' && whole.length != 1 then none
  else
    match scanFraction? rest with
    | none => none
    | some (fraction, rest) =>
      match scanExponent? rest with
      | none => none
      | some (exponent, rest) => some ({ negative, whole, fraction, exponent }, rest)

/-- The number at the start of a text. -/
def scanNumeral? : List Char → Option (Numeral × List Char)
  | '-' :: rest => scanMagnitude? true rest
  | cs => scanMagnitude? false cs

/-! ## Tokens -/

/-- The token at the start of a text, and the text after it. -/
def Token.next? : List Char → Option (Token × List Char)
  | '[' :: rest => some (.openArray, rest)
  | ']' :: rest => some (.closeArray, rest)
  | '{' :: rest => some (.openObject, rest)
  | '}' :: rest => some (.closeObject, rest)
  | ',' :: rest => some (.comma, rest)
  | ':' :: rest => some (.colon, rest)
  | '"' :: rest => (scanText [] rest).map fun (s, rest) => (.string s, rest)
  | 'n' :: 'u' :: 'l' :: 'l' :: rest => some (.null, rest)
  | 't' :: 'r' :: 'u' :: 'e' :: rest => some (.bool true, rest)
  | 'f' :: 'a' :: 'l' :: 's' :: 'e' :: rest => some (.bool false, rest)
  | cs => (scanNumeral? cs).map fun (n, rest) => (.number n, rest)

theorem length_scanFraction? {cs rest : List Char} {f : Option (List Char)}
    (h : scanFraction? cs = some (f, rest)) : rest.length ≤ cs.length := by
  unfold scanFraction? at h
  split at h
  · rename_i tail
    have := length_digits tail
    grind
  · grind

theorem length_scanSign (cs : List Char) : (scanSign cs).2.length ≤ cs.length := by
  unfold scanSign
  split <;> simp

theorem length_scanExponent? {cs rest : List Char} {e : Option (Bool × List Char)}
    (h : scanExponent? cs = some (e, rest)) : rest.length ≤ cs.length := by
  unfold scanExponent? at h
  split at h
  · grind
  · rename_i tail
    have h1 := length_scanSign tail
    have h2 := length_digits (scanSign tail).2
    grind

theorem length_scanMagnitude? {negative : Bool} {cs rest : List Char} {n : Numeral}
    (h : scanMagnitude? negative cs = some (n, rest)) : rest.length < cs.length := by
  have hd : cs.length = (digits cs).1.length + (digits cs).2.length := by
    rw [← List.length_append, digits, List.takeWhile_append_dropWhile]
  have hw : (digits cs).1.isEmpty = false → 0 < (digits cs).1.length := by
    cases (digits cs).1 <;> simp
  unfold scanMagnitude? at h
  split at h
  rename_i whole tail heq
  split at h
  · simp at h
  · split at h
    · simp at h
    · rename_i h1
      have := length_scanFraction? h1
      split at h
      · simp at h
      · rename_i h2
        have := length_scanExponent? h2
        grind

theorem length_scanNumeral? {cs rest : List Char} {n : Numeral}
    (h : scanNumeral? cs = some (n, rest)) : rest.length < cs.length := by
  unfold scanNumeral? at h
  split at h
  · have := length_scanMagnitude? h
    simp
    omega
  · exact length_scanMagnitude? h

theorem Token.length_next? {cs rest : List Char} {t : Token}
    (h : Token.next? cs = some (t, rest)) : rest.length < cs.length := by
  unfold Token.next? at h
  split at h
  case h_7 =>
    obtain ⟨⟨s, r⟩, hs, hr⟩ := Option.map_eq_some_iff.1 h
    have := length_scanText hs
    grind
  case h_11 =>
    obtain ⟨⟨n, r⟩, hs, hr⟩ := Option.map_eq_some_iff.1 h
    have := length_scanNumeral? hs
    grind
  all_goals grind

/-- All tokens of a text after the tokens `done` (last first). -/
def tokensFrom? (done : List Token) (cs : List Char) : Option (List Token) :=
  match _blanks : cs.dropWhile isBlank with
  | [] => some done.reverse
  | c :: tail =>
    match _next : Token.next? (c :: tail) with
    | none => none
    | some (t, rest) => tokensFrom? (t :: done) rest
termination_by cs.length
decreasing_by
  have := Token.length_next? _next
  have := (List.dropWhile_sublist (l := cs) isBlank).length_le
  rw [_blanks] at this
  omega

/-- All tokens of a text. -/
def tokens? (cs : List Char) : Option (List Token) := tokensFrom? [] cs

end CoverSearch.Json
