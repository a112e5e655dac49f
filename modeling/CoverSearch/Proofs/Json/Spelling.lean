import CoverSearch.Json.Writer

/-!
# How JSON is written

The grammar of texts, apart from any reader. The pieces of a string and the exponent of a number have several written
forms, all other tokens have one. A text is its tokens one after the other, with blanks wherever there are no tokens.
The written forms that the writer chooses are among them.

* `Json.Piece.Writable`, `Json.Numeral.Writable`, `Json.Token.Writable` : what has a written form;
* `Json.Piece.Spelled`, `Json.Numeral.Spelled`, `Json.Token.Spelled` : the written forms;
* `Json.Spells` : texts of tokens;
* `Json.spells_render` : what the writer makes of tokens is a text of theirs.
-/

namespace CoverSearch.Json

/-! ## Strings -/

/-- A unit has four hexadecimal digits, and no control character stands for itself. -/
def Piece.Writable : Piece → Prop
  | .plain c => 0x20 ≤ c.toNat
  | .code unit => unit < 0x10000

/-- A character stands for itself unless it has a meaning of its own or is a control character. Some have a letter
behind a backslash, and all 16-bit units can be written by four hexadecimal digits. -/
inductive Piece.Spelled : Piece → List Char → Prop
  | plain {c : Char} : c ≠ '"' → c ≠ '\\' → 0x20 ≤ c.toNat → Spelled (.plain c) [c]
  | escaped {letter c : Char} : escaped? letter = some c → Spelled (.plain c) ['\\', letter]
  | code {a b c d : Char} {unit : Nat} : hexUnit? a b c d = some unit →
      Spelled (.code unit) ['\\', 'u', a, b, c, d]

/-- What stands between the quotes of a string. -/
inductive Text.Spelled : Text → List Char → Prop
  | nil : Spelled [] []
  | cons {p : Piece} {s : Text} {cs ds : List Char} : p.Spelled cs → Spelled s ds → Spelled (p :: s) (cs ++ ds)

theorem hexValue?_digitChar : ∀ d < 16, hexValue? (Nat.digitChar d) = some d := by decide

theorem hexUnit?_digitChar {w x y z : Nat} (hw : w < 16) (hx : x < 16) (hy : y < 16) (hz : z < 16) :
    hexUnit? (Nat.digitChar w) (Nat.digitChar x) (Nat.digitChar y) (Nat.digitChar z) =
      some (((w * 16 + x) * 16 + y) * 16 + z) := by
  unfold hexUnit?
  rw [hexValue?_digitChar w hw, hexValue?_digitChar x hx, hexValue?_digitChar y hy, hexValue?_digitChar z hz]
  rfl

theorem Piece.spelled_render {p : Piece} (h : p.Writable) : p.Spelled p.render := by
  cases p with
  | plain c =>
    unfold Piece.render
    dsimp only
    split
    · next hc =>
      rcases Bool.or_eq_true_iff.1 hc with hc | hc
      · obtain rfl := eq_of_beq hc
        exact .escaped rfl
      · obtain rfl := eq_of_beq hc
        exact .escaped rfl
    · next hc =>
      rw [Bool.or_eq_true_iff, not_or, beq_iff_eq, beq_iff_eq] at hc
      exact .plain hc.1 hc.2 h
  | code unit =>
    have hlt : unit < 0x10000 := h
    refine .code ((hexUnit?_digitChar ?_ ?_ ?_ ?_).trans (congrArg some ?_)) <;> omega

theorem Text.spelled_render {s : Text} (h : ∀ p ∈ s, p.Writable) : s.Spelled (s.flatMap Piece.render) := by
  induction s with
  | nil => exact .nil
  | cons p s ih =>
    rw [List.flatMap_cons]
    exact .cons (p.spelled_render (h p List.mem_cons_self)) (ih fun q hq => h q (List.mem_cons_of_mem p hq))

/-! ## Numbers -/

/-- Digits, at least one. -/
def IsDigits (ds : List Char) : Prop := ds ≠ [] ∧ ∀ c ∈ ds, c.isDigit = true

namespace Numeral

/-- Each part of a number has a digit, and a leading zero stands alone. -/
structure Writable (n : Numeral) : Prop where
  whole : IsDigits n.whole
  zero : n.whole.head? = some '0' → n.whole.length = 1
  fraction : ∀ ds ∈ n.fraction, IsDigits ds
  exponent : ∀ e ∈ n.exponent, IsDigits e.2

/-- The mark of an exponent has either case, and a plus sign may be left out. -/
inductive SpelledExponent : Option (Bool × List Char) → List Char → Prop
  | none : SpelledExponent none []
  | minus {mark : Char} {ds : List Char} : mark = 'e' ∨ mark = 'E' →
      SpelledExponent (some (true, ds)) (mark :: '-' :: ds)
  | plus {mark : Char} {ds : List Char} : mark = 'e' ∨ mark = 'E' →
      SpelledExponent (some (false, ds)) (mark :: '+' :: ds)
  | bare {mark : Char} {ds : List Char} : mark = 'e' ∨ mark = 'E' →
      SpelledExponent (some (false, ds)) (mark :: ds)

/-- A sign, the digits of the whole part, the fraction and the exponent. -/
inductive Spelled : Numeral → List Char → Prop
  | intro {n : Numeral} {es : List Char} : n.Writable → SpelledExponent n.exponent es →
      Spelled n ((if n.negative then ['-'] else []) ++ (n.whole ++ (renderFraction n.fraction ++ es)))

theorem spelledExponent_render (e : Option (Bool × List Char)) : SpelledExponent e (renderExponent e) := by
  rcases e with _ | ⟨_ | _, ds⟩
  · exact .none
  · exact .bare (Or.inl rfl)
  · exact .minus (Or.inl rfl)

theorem spelled_render {n : Numeral} (hn : n.Writable) : n.Spelled n.render := by
  unfold Numeral.render
  rw [List.append_assoc, List.append_assoc]
  exact .intro hn (spelledExponent_render n.exponent)

end Numeral

/-! ## Tokens -/

namespace Token

/-- The strings and numbers of a token can be written. -/
def Writable : Token → Prop
  | .number n => n.Writable
  | .string s => ∀ p ∈ s, p.Writable
  | _ => True

/-- The written forms of a token. -/
def Spelled : Token → List Char → Prop
  | .number n, cs => n.Spelled cs
  | .string s, cs => ∃ inner, s.Spelled inner ∧ cs = '"' :: (inner ++ ['"'])
  | t, cs => cs = t.render

theorem spelled_render {t : Token} (h : t.Writable) : t.Spelled t.render := by
  cases t with
  | number n => exact Numeral.spelled_render h
  | string s => exact ⟨_, Text.spelled_render h, rfl⟩
  | openArray | closeArray | openObject | closeObject | comma | colon | null | bool b => rfl

end Token

/-! ## Texts -/

/-- Tokens one after the other, among blanks. -/
inductive Spells : List Token → List Char → Prop
  | nil : Spells [] []
  | blank {c : Char} {ts : List Token} {cs : List Char} : isBlank c = true → Spells ts cs → Spells ts (c :: cs)
  | token {t : Token} {ts : List Token} {part cs : List Char} : t.Spelled part → Spells ts cs →
      Spells (t :: ts) (part ++ cs)

theorem spells_render {ts : List Token} (h : ∀ t ∈ ts, t.Writable) : Spells ts (ts.flatMap Token.render) := by
  induction ts with
  | nil => exact .nil
  | cons t ts ih =>
    rw [List.flatMap_cons]
    exact .token (t.spelled_render (h t List.mem_cons_self)) (ih fun u hu => h u (List.mem_cons_of_mem t hu))

/-- Numbers have one digit in each part wherever they are written. -/
theorem Spells.writable_number {ts : List Token} {cs : List Char} (h : Spells ts cs) {n : Numeral}
    (hn : .number n ∈ ts) : n.Writable := by
  induction h with
  | nil => exact absurd hn List.not_mem_nil
  | blank _ _ ih => exact ih hn
  | token ht _ ih =>
    rcases List.mem_cons.1 hn with rfl | hn
    · cases ht with | intro hn _ => exact hn
    · exact ih hn

end CoverSearch.Json
