import CoverSearch.Proofs.Json.Spelling
import Mathlib.Data.List.Chain
import Mathlib.Data.List.TakeWhile

/-!
# Tokens are read as they are written

The scanner finds a token at the start of a text where one of its written forms stands there, and only then. A number
ends where no further character can belong to it, so what stands behind it matters; every other token ends by itself.
Hence all tokens of a text are found, as long as no two numbers are neighbours.

* `Json.EndsNumber` : a text that does not continue a number before it;
* `Json.Token.next?_of_spelled`, `Json.Token.spelled_of_next?` : the token at the start of a text;
* `Json.Separated` : tokens among which no two numbers are neighbours;
* `Json.tokens?_of_spells`, `Json.spells_of_tokens?` : all tokens of a text.
-/

namespace CoverSearch.Json

variable {c : Char} {cs ds rest : List Char}

/-! ## Strings -/

theorem scanText_of_spelledPiece {p : Piece} (h : p.Spelled cs) (done : Text) (rest : List Char) :
    scanText done (cs ++ rest) = scanText (p :: done) rest := by
  cases h with
  | @plain c hquote hescape hcontrol =>
    have hother : ¬ ((c == '\\' || c.toNat < 0x20) = true) := by
      simpa [hescape] using hcontrol
    show scanText done (c :: rest) = _
    rw [scanText, if_neg hother]
    · exact fun hc => hquote hc
    · exact fun _ _ _ _ _ hc => absurd hc hescape
    · exact fun _ _ hc => absurd hc hescape
  | @escaped letter c hletter =>
    show scanText done ('\\' :: letter :: rest) = _
    rw [scanText, hletter]
    rintro a b c d tail rfl
    exact nomatch hletter
  | @code a b c d unit hunit =>
    show scanText done ('\\' :: 'u' :: a :: b :: c :: d :: rest) = _
    rw [scanText, hunit]

/-- The scan of a string takes one piece at a time, up to the quote. -/
theorem scanText_of_spelled {s : Text} (h : s.Spelled cs) (done : Text) (rest : List Char) :
    scanText done (cs ++ '"' :: rest) = some (done.reverse ++ s, rest) := by
  induction h generalizing done with
  | nil =>
    rw [List.append_nil]
    rfl
  | cons hp _ ih =>
    rw [List.append_assoc, scanText_of_spelledPiece hp, ih, List.reverse_cons, List.append_assoc]
    rfl

theorem spelled_of_scanText {done s : Text} (h : scanText done cs = some (s, rest)) :
    ∃ t inner, s = done.reverse ++ t ∧ Text.Spelled t inner ∧ cs = inner ++ '"' :: rest := by
  fun_induction scanText done cs with
  | case1 => cases h
  | case2 done tail =>
    obtain ⟨rfl, rfl⟩ := Prod.mk.inj (Option.some.inj h)
    exact ⟨[], [], (List.append_nil _).symm, .nil, rfl⟩
  | case3 done a b c d tail unit hunit ih =>
    obtain ⟨t, inner, rfl, ht, rfl⟩ := ih h
    exact ⟨.code unit :: t, _, by simp, .cons (.code hunit) ht, rfl⟩
  | case4 => cases h
  | case5 done letter tail _ c hletter ih =>
    obtain ⟨t, inner, rfl, ht, rfl⟩ := ih h
    exact ⟨.plain c :: t, _, by simp, .cons (.escaped hletter) ht, rfl⟩
  | case6 => cases h
  | case7 => cases h
  | case8 done c tail hquote _ _ hother ih =>
    obtain ⟨t, inner, rfl, ht, rfl⟩ := ih h
    rw [Bool.or_eq_true_iff, not_or, beq_iff_eq, decide_eq_true_eq, Nat.not_lt] at hother
    exact ⟨.plain c :: t, _, by simp, .cons (.plain (fun hc => hquote hc) hother.1 hother.2) ht, rfl⟩

/-! ## Numbers -/

/-- No character at the start of a text can go on with a number. -/
def EndsNumber (rest : List Char) : Prop :=
  ∀ c ∈ rest.head?, c.isDigit = false ∧ c ≠ '.' ∧ c ≠ 'e' ∧ c ≠ 'E'

theorem digits_append (hds : ∀ c ∈ ds, c.isDigit = true) (hrest : ∀ c ∈ rest.head?, c.isDigit = false) :
    digits (ds ++ rest) = (ds, rest) := by
  unfold digits
  rw [List.takeWhile_append_of_pos hds, List.dropWhile_append_of_pos hds]
  cases rest with
  | nil => rw [List.takeWhile_nil, List.append_nil, List.dropWhile_nil]
  | cons c rest =>
    have hc : ¬ c.isDigit = true := by
      rw [hrest c rfl]
      exact Bool.false_ne_true
    rw [List.takeWhile_cons_of_neg hc, List.append_nil, List.dropWhile_cons_of_neg hc]

theorem digits_eq (h : digits cs = (ds, rest)) : cs = ds ++ rest ∧ ∀ c ∈ ds, c.isDigit = true := by
  obtain ⟨rfl, rfl⟩ := Prod.mk.inj h
  exact ⟨List.takeWhile_append_dropWhile.symm, fun c hc => List.mem_takeWhile_imp hc⟩

theorem head?_append_of_ne_nil (h : ds ≠ []) (rest : List Char) : (ds ++ rest).head? = ds.head? := by
  cases ds with
  | nil => exact absurd rfl h
  | cons c ds => rfl

theorem scanFraction?_render {f : Option (List Char)} (hf : ∀ ds ∈ f, IsDigits ds)
    (hrest : ∀ c ∈ rest.head?, c.isDigit = false ∧ c ≠ '.') :
    scanFraction? (Numeral.renderFraction f ++ rest) = some (f, rest) := by
  cases f with
  | none =>
    show scanFraction? rest = _
    rw [scanFraction?]
    rintro tail rfl
    exact (hrest '.' rfl).2 rfl
  | some ds =>
    show scanFraction? ('.' :: (ds ++ rest)) = _
    obtain ⟨hne, hds⟩ := hf ds rfl
    rw [scanFraction?, digits_append hds fun c hc => (hrest c hc).1]
    exact if_neg fun hempty => hne (List.isEmpty_iff.1 hempty)

theorem eq_render_of_scanFraction? {f : Option (List Char)} (h : scanFraction? cs = some (f, rest)) :
    (∀ ds ∈ f, IsDigits ds) ∧ cs = Numeral.renderFraction f ++ rest := by
  unfold scanFraction? at h
  split at h
  · next tail =>
    split at h
    next ds rest' hds =>
    split at h
    · cases h
    · next hne =>
      obtain ⟨rfl, rfl⟩ := Prod.mk.inj (Option.some.inj h)
      obtain ⟨rfl, hdigits⟩ := digits_eq hds
      have hall : IsDigits ds := ⟨fun hnil => hne (List.isEmpty_iff.2 hnil), hdigits⟩
      exact ⟨fun _ hd => Option.mem_some.1 hd ▸ hall, rfl⟩
  · obtain ⟨rfl, rfl⟩ := Prod.mk.inj (Option.some.inj h)
    exact ⟨nofun, rfl⟩

/-- Digits are no sign. -/
theorem scanSign_of_isDigits (hds : IsDigits ds) (rest : List Char) : scanSign (ds ++ rest) = (false, ds ++ rest) := by
  obtain ⟨c, ds, rfl⟩ := List.exists_cons_of_ne_nil hds.1
  have hc := hds.2 c List.mem_cons_self
  show scanSign (c :: (ds ++ rest)) = _
  rw [scanSign]
  · rfl
  · rintro tail htail
    obtain ⟨rfl, -⟩ := List.cons.inj htail
    exact absurd hc (by decide)
  · rintro tail htail
    obtain ⟨rfl, -⟩ := List.cons.inj htail
    exact absurd hc (by decide)

/-- Behind the mark of an exponent. -/
theorem scanExponent?_of_sign {mark : Char} {signed : List Char} {negative : Bool} (hmark : mark = 'e' ∨ mark = 'E')
    (hsign : scanSign signed = (negative, ds ++ rest)) (hds : IsDigits ds) (hrest : EndsNumber rest) :
    scanExponent? (mark :: signed) = some (some (negative, ds), rest) := by
  have hbeq : (mark == 'e' || mark == 'E') = true := by simpa using hmark
  rw [scanExponent?, if_pos hbeq, hsign]
  dsimp only
  rw [digits_append hds.2 fun c hc => (hrest c hc).1]
  exact if_neg fun hempty => hds.1 (List.isEmpty_iff.1 hempty)

theorem scanExponent?_of_spelled {e : Option (Bool × List Char)} (h : Numeral.SpelledExponent e cs)
    (he : ∀ p ∈ e, IsDigits p.2) (hrest : EndsNumber rest) : scanExponent? (cs ++ rest) = some (e, rest) := by
  cases h with
  | none =>
    show scanExponent? rest = _
    cases rest with
    | nil => rfl
    | cons c rest =>
      obtain ⟨-, -, hlower, hupper⟩ := hrest c rfl
      rw [scanExponent?, if_neg (by simp [hlower, hupper])]
  | minus hmark | plus hmark => exact scanExponent?_of_sign hmark rfl (he _ rfl) hrest
  | bare hmark => exact scanExponent?_of_sign hmark (scanSign_of_isDigits (he _ rfl) rest) (he _ rfl) hrest

theorem spelled_of_scanExponent? {e : Option (Bool × List Char)} (h : scanExponent? cs = some (e, rest)) :
    (∀ p ∈ e, IsDigits p.2) ∧ ∃ es, Numeral.SpelledExponent e es ∧ cs = es ++ rest := by
  unfold scanExponent? at h
  split at h
  · obtain ⟨rfl, rfl⟩ := Prod.mk.inj (Option.some.inj h)
    exact ⟨nofun, [], .none, rfl⟩
  · next mark tail =>
    split at h
    · next hmark =>
      have hmark : mark = 'e' ∨ mark = 'E' := by simpa using hmark
      split at h
      next negative signed hsign =>
      split at h
      next ds rest' hds =>
      split at h
      · cases h
      · next hne =>
        obtain ⟨rfl, rfl⟩ := Prod.mk.inj (Option.some.inj h)
        obtain ⟨rfl, hdigits⟩ := digits_eq hds
        have hall : IsDigits ds := ⟨fun hnil => hne (List.isEmpty_iff.2 hnil), hdigits⟩
        refine ⟨fun _ hp => Option.mem_some.1 hp ▸ hall, ?_⟩
        unfold scanSign at hsign
        split at hsign <;> obtain ⟨rfl, rfl⟩ := Prod.mk.inj hsign
        · exact ⟨_, .minus hmark, rfl⟩
        · exact ⟨_, .plus hmark, rfl⟩
        · exact ⟨_, .bare hmark, rfl⟩
    · obtain ⟨rfl, rfl⟩ := Prod.mk.inj (Option.some.inj h)
      exact ⟨nofun, [], .none, rfl⟩

theorem head?_spelledExponent {e : Option (Bool × List Char)} (h : Numeral.SpelledExponent e cs)
    (hrest : EndsNumber rest) : ∀ c ∈ (cs ++ rest).head?, c.isDigit = false ∧ c ≠ '.' := by
  cases h with
  | none =>
    intro c hc
    exact ⟨(hrest c hc).1, (hrest c hc).2.1⟩
  | minus hmark | plus hmark | bare hmark =>
    intro c hc
    obtain rfl := Option.some.inj hc
    rcases hmark with rfl | rfl <;> decide

theorem scanMagnitude?_of_spelled {n : Numeral} (hn : n.Writable) (h : Numeral.SpelledExponent n.exponent cs)
    (hrest : EndsNumber rest) :
    scanMagnitude? n.negative (n.whole ++ (Numeral.renderFraction n.fraction ++ (cs ++ rest))) = some (n, rest) := by
  have hexponent := head?_spelledExponent h hrest
  have hfraction : ∀ c ∈ (Numeral.renderFraction n.fraction ++ (cs ++ rest)).head?, c.isDigit = false := by
    intro c hc
    rcases hf : n.fraction with _ | ds
    · rw [hf] at hc
      exact (hexponent c hc).1
    · rw [hf] at hc
      obtain rfl := Option.some.inj hc
      decide
  have hwhole : ¬ ((n.whole.isEmpty || n.whole.head? == some '0' && n.whole.length != 1) = true) := by
    have hne := hn.whole.1
    have hzero := hn.zero
    simpa [hne] using hzero
  unfold scanMagnitude?
  rw [digits_append hn.whole.2 hfraction]
  dsimp only
  rw [if_neg hwhole, scanFraction?_render hn.fraction hexponent]
  dsimp only
  rw [scanExponent?_of_spelled h hn.exponent hrest]

theorem spelled_of_scanMagnitude? {negative : Bool} {n : Numeral} (h : scanMagnitude? negative cs = some (n, rest)) :
    n.negative = negative ∧ n.Writable ∧ ∃ es, Numeral.SpelledExponent n.exponent es ∧
      cs = n.whole ++ (Numeral.renderFraction n.fraction ++ es) ++ rest := by
  unfold scanMagnitude? at h
  split at h
  next whole tail hwhole =>
  obtain ⟨rfl, hdigits⟩ := digits_eq hwhole
  split at h
  · cases h
  · next hzero =>
    split at h
    · cases h
    · next fraction tail' hfraction =>
      obtain ⟨hpoint, rfl⟩ := eq_render_of_scanFraction? hfraction
      split at h
      · cases h
      · next exponent rest' hexponent =>
        obtain ⟨hmark, es, hes, rfl⟩ := spelled_of_scanExponent? hexponent
        obtain ⟨rfl, rfl⟩ := Prod.mk.inj (Option.some.inj h)
        rw [Bool.or_eq_true_iff, not_or, Bool.and_eq_true, not_and, beq_iff_eq, bne_iff_ne, not_not,
          List.isEmpty_iff] at hzero
        exact ⟨rfl, ⟨⟨hzero.1, hdigits⟩, hzero.2, hpoint, hmark⟩, es, hes, by simp⟩

theorem scanNumeral?_of_spelled {n : Numeral} (h : n.Spelled cs) (hrest : EndsNumber rest) :
    scanNumeral? (cs ++ rest) = some (n, rest) := by
  cases h with | intro hn hes =>
  have hmagnitude := scanMagnitude?_of_spelled hn hes hrest
  rw [List.append_assoc, List.append_assoc, List.append_assoc]
  cases hs : n.negative with
  | true =>
    rw [hs] at hmagnitude
    exact hmagnitude
  | false =>
    rw [hs] at hmagnitude
    obtain ⟨c, ds, hwhole⟩ := List.exists_cons_of_ne_nil hn.whole.1
    have hc := hn.whole.2 c (hwhole ▸ List.mem_cons_self)
    rw [hwhole] at hmagnitude ⊢
    show scanNumeral? (c :: _) = _
    rw [scanNumeral?]
    · exact hmagnitude
    · rintro tail htail
      obtain ⟨rfl, -⟩ := List.cons.inj htail
      exact absurd hc (by decide)

theorem spelled_of_scanNumeral? {n : Numeral} (h : scanNumeral? cs = some (n, rest)) :
    ∃ part, n.Spelled part ∧ cs = part ++ rest := by
  unfold scanNumeral? at h
  split at h <;> obtain ⟨hnegative, hn, es, hes, rfl⟩ := spelled_of_scanMagnitude? h
  all_goals
    refine ⟨_, .intro hn hes, ?_⟩
    rw [hnegative]
    rfl

/-! ## Tokens -/

namespace Token

theorem next?_of_numeral (h : c.isDigit = true ∨ c = '-') (cs : List Char) :
    Token.next? (c :: cs) = (scanNumeral? (c :: cs)).map fun (n, rest) => (.number n, rest) := by
  rw [Token.next?]
  all_goals
    rintro tail htail
    obtain ⟨rfl, -⟩ := List.cons.inj htail
    exact absurd h (by decide)

theorem exists_cons_of_spelled {n : Numeral} (h : n.Spelled cs) :
    ∃ c ds, cs = c :: ds ∧ (c.isDigit = true ∨ c = '-') := by
  cases h with | intro hn _ =>
  cases n.negative with
  | true => exact ⟨'-', _, rfl, Or.inr rfl⟩
  | false =>
    obtain ⟨c, ds, hwhole⟩ := List.exists_cons_of_ne_nil hn.whole.1
    exact ⟨c, _, by rw [hwhole]; rfl, Or.inl (hn.whole.2 c (hwhole ▸ List.mem_cons_self))⟩

/-- The token at the start of a text that starts with a written form of it. -/
theorem next?_of_spelled {t : Token} (h : t.Spelled cs) (hrest : ∀ n, t = .number n → EndsNumber rest) :
    Token.next? (cs ++ rest) = some (t, rest) := by
  cases t with
  | openArray | closeArray | openObject | closeObject | comma | colon | null =>
    obtain rfl := h
    rfl
  | bool b =>
    obtain rfl := h
    cases b <;> rfl
  | string s =>
    obtain ⟨inner, hs, rfl⟩ := h
    rw [List.cons_append, List.append_assoc, Token.next?]
    show (scanText [] (inner ++ '"' :: rest)).map _ = _
    rw [scanText_of_spelled hs]
    rfl
  | number n =>
    have hscan := scanNumeral?_of_spelled h (hrest n rfl)
    obtain ⟨c, ds, rfl, hc⟩ := exists_cons_of_spelled h
    rw [List.cons_append] at hscan ⊢
    rw [next?_of_numeral hc, hscan]
    rfl

/-- Whatever is found at the start of a text is written there. -/
theorem spelled_of_next? {t : Token} (h : Token.next? cs = some (t, rest)) :
    ∃ part, t.Spelled part ∧ cs = part ++ rest := by
  unfold Token.next? at h
  split at h
  case h_7 =>
    obtain ⟨⟨s, tail⟩, hs, heq⟩ := Option.map_eq_some_iff.1 h
    obtain ⟨rfl, rfl⟩ := Prod.mk.inj heq
    obtain ⟨t, inner, rfl, ht, rfl⟩ := spelled_of_scanText hs
    exact ⟨_, ⟨inner, ht, rfl⟩, by simp⟩
  case h_11 =>
    obtain ⟨⟨n, tail⟩, hn, heq⟩ := Option.map_eq_some_iff.1 h
    obtain ⟨rfl, rfl⟩ := Prod.mk.inj heq
    exact spelled_of_scanNumeral? hn
  all_goals
    obtain ⟨rfl, rfl⟩ := Prod.mk.inj (Option.some.inj h)
    exact ⟨_, rfl, rfl⟩

end Token

/-! ## All tokens -/

/-- No token starts with a blank. -/
theorem dropWhile_isBlank_of_next? {p : Token × List Char} (h : Token.next? cs = some p) :
    cs.dropWhile isBlank = cs := by
  cases cs with
  | nil => rfl
  | cons c cs =>
    refine List.dropWhile_cons_of_neg fun hc => ?_
    unfold isBlank at hc
    simp only [Bool.or_eq_true, beq_iff_eq] at hc
    rcases hc with ((rfl | rfl) | rfl) | rfl <;> exact nomatch h

theorem tokensFrom?_of_next? {t : Token} (h : Token.next? cs = some (t, rest)) (done : List Token) :
    tokensFrom? done cs = tokensFrom? (t :: done) rest := by
  have hblanks := dropWhile_isBlank_of_next? h
  rw [tokensFrom?]
  split
  · next hnil =>
    obtain rfl := hblanks.symm.trans hnil
    cases h
  · next c tail hcons =>
    obtain rfl := hblanks.symm.trans hcons
    split
    · next hnone => cases h.symm.trans hnone
    · next t' rest' hsome =>
      obtain ⟨rfl, rfl⟩ := Prod.mk.inj (Option.some.inj (h.symm.trans hsome))
      rfl

theorem tokensFrom?_of_isBlank (h : isBlank c = true) (done : List Token) (cs : List Char) :
    tokensFrom? done (c :: cs) = tokensFrom? done cs := by
  have hblanks : (c :: cs).dropWhile isBlank = cs.dropWhile isBlank := List.dropWhile_cons_of_pos h
  rw [tokensFrom?, tokensFrom?, hblanks]

def Token.IsNumber : Token → Prop
  | .number _ => True
  | _ => False

/-- No two numbers are neighbours. -/
def Separated (ts : List Token) : Prop := ts.IsChain fun t u => t.IsNumber → ¬ u.IsNumber

/-- What can follow a number ends it. -/
theorem EndsNumber.of_spells {ts : List Token} (h : Spells ts cs) (hts : ∀ t ∈ ts.head?, ¬ t.IsNumber) :
    EndsNumber cs := by
  cases h with
  | nil => exact nofun
  | blank hc _ =>
    rintro c hhead
    obtain rfl := Option.some.inj hhead
    unfold isBlank at hc
    simp only [Bool.or_eq_true, beq_iff_eq] at hc
    rcases hc with ((rfl | rfl) | rfl) | rfl <;> decide
  | @token t ts part cs ht _ =>
    have hnumber := hts t rfl
    rintro c hhead
    cases t with
    | number n => exact absurd trivial hnumber
    | string s =>
      obtain ⟨inner, -, rfl⟩ := ht
      obtain rfl := Option.some.inj hhead
      decide
    | openArray | closeArray | openObject | closeObject | comma | colon | null =>
      obtain rfl := ht
      obtain rfl := Option.some.inj hhead
      decide
    | bool b =>
      obtain rfl := ht
      cases b <;>
      · obtain rfl := Option.some.inj hhead
        decide

/-- The tokens of a text are found, one after the other. -/
theorem tokensFrom?_of_spells {ts : List Token} (h : Spells ts cs) (hts : Separated ts) (done : List Token) :
    tokensFrom? done cs = some (done.reverse ++ ts) := by
  induction h generalizing done with
  | nil =>
    rw [tokensFrom?, List.append_nil]
    rfl
  | blank hc _ ih => rw [tokensFrom?_of_isBlank hc, ih hts]
  | @token t ts part cs ht hcs ih =>
    obtain ⟨hhead, htail⟩ := List.isChain_cons.1 hts
    have hnext := Token.next?_of_spelled ht fun n hn =>
      EndsNumber.of_spells hcs fun u hu => hhead u hu (hn ▸ trivial)
    rw [tokensFrom?_of_next? hnext, ih htail, List.reverse_cons, List.append_assoc]
    rfl

theorem tokens?_of_spells {ts : List Token} (h : Spells ts cs) (hts : Separated ts) : tokens? cs = some ts :=
  tokensFrom?_of_spells h hts []

theorem Spells.of_dropWhile {ts : List Token} (h : Spells ts (cs.dropWhile isBlank)) : Spells ts cs := by
  induction cs with
  | nil => exact h
  | cons c cs ih =>
    by_cases hc : isBlank c = true
    · rw [List.dropWhile_cons_of_pos hc] at h
      exact .blank hc (ih h)
    · rwa [List.dropWhile_cons_of_neg hc] at h

theorem spells_of_tokensFrom? {done us : List Token} (h : tokensFrom? done cs = some us) :
    ∃ ts, us = done.reverse ++ ts ∧ Spells ts cs := by
  fun_induction tokensFrom? done cs with
  | case1 done cs hblanks =>
    obtain rfl := Option.some.inj h
    exact ⟨[], (List.append_nil _).symm, .of_dropWhile (hblanks ▸ .nil)⟩
  | case2 => cases h
  | case3 done cs c tail hblanks t rest hnext ih =>
    obtain ⟨ts, rfl, hts⟩ := ih h
    obtain ⟨part, hpart, heq⟩ := Token.spelled_of_next? hnext
    refine ⟨t :: ts, by simp, .of_dropWhile ?_⟩
    rw [hblanks, heq]
    exact .token hpart hts

/-- Tokens that are found are those of the text. -/
theorem spells_of_tokens? {ts : List Token} (h : tokens? cs = some ts) : Spells ts cs := by
  obtain ⟨us, rfl, hus⟩ := spells_of_tokensFrom? h
  exact hus

end CoverSearch.Json
