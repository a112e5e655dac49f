import CoverSearch.Graph.Drawing
import Mathlib.Data.List.Basic

/-!
# Names of targets

A name is the unit, a colon and the text of the block. Units are arbitrary texts: they may hold colons, and may end like
names themselves. But the text of a block is a number or the word for the sentinel. It holds no colon, so it starts
behind the last colon of the name, whatever the unit is.

In drawings a name stands in quotes, with a backslash before each quote and backslash of its own. So a reader that takes
a backslash together with the character behind it stops at the closing quote, and knows the name.

* `isDigit_of_mem_toString`, `toString_inj` : numbers by their digits;
* `Target.blockText` : the text of a block; `Target.colon_notMem_blockText`, `Target.blockText_inj` : what it tells;
* `append_cons_inj` : texts that are divided at their last separators;
* `Graph.readLabel` : the reader of labels; `Graph.readLabel_labelChars` : it gives back what was written;
* `Target.render_eq_render_iff` : different targets have different names and labels.
-/

namespace CoverSearch

/-! ## Numbers -/

theorem isDigit_of_mem_toString {n : Nat} {c : Char} (hc : c ∈ (toString n).toList) : c.isDigit = true := by
  rw [Nat.toString_eq_repr, Nat.toList_repr] at hc
  exact Nat.isDigit_of_mem_toDigits (by decide) (by decide) hc

theorem toString_inj {m n : Nat} (h : toString m = toString n) : m = n := by
  have hdigits : Nat.toDigits 10 m = Nat.toDigits 10 n := by
    rw [← Nat.toList_repr, ← Nat.toList_repr, ← Nat.toString_eq_repr, ← Nat.toString_eq_repr, h]
  calc
    m = Nat.ofDigitChars 10 (Nat.toDigits 10 m) 0 := Nat.ofDigitChars_ten_toDigits.symm
    _ = Nat.ofDigitChars 10 (Nat.toDigits 10 n) 0 := by rw [hdigits]
    _ = n := Nat.ofDigitChars_ten_toDigits

/-- The word for the sentinel is no number. -/
theorem toString_ne_root (n : Nat) : toString n ≠ "root" := by
  intro h
  have hmem : 'r' ∈ (toString n).toList := by
    rw [h]
    decide
  exact absurd (isDigit_of_mem_toString hmem) (by decide)

/-! ## Blocks -/

namespace Target

/-- What a name says of the block. -/
def blockText (b : UInt64) : String := if b == rootBlock then "root" else toString b.toNat

theorem render_eq (t : Target) : t.render = t.unit ++ ":" ++ blockText t.block := rfl

theorem colon_notMem_blockText (b : UInt64) : ':' ∉ (blockText b).toList := by
  rw [blockText]
  split
  · decide
  · intro hmem
    exact absurd (isDigit_of_mem_toString hmem) (by decide)

theorem blockText_inj {b c : UInt64} (h : blockText b = blockText c) : b = c := by
  rw [blockText, blockText] at h
  split at h <;> split at h
  · next hb hc => exact (beq_iff_eq.1 hb).trans (beq_iff_eq.1 hc).symm
  · exact absurd h.symm (toString_ne_root _)
  · exact absurd h (toString_ne_root _)
  · exact UInt64.toNat_inj.1 (toString_inj h)

end Target

/-! ## The last separator -/

variable {α : Type} {a : α} {p q s t : List α}

theorem eq_nil_of_cons_eq_append (hs : a ∉ s) (h : a :: s = p ++ a :: t) : p = [] := by
  cases p with
  | nil => rfl
  | cons b p =>
    obtain ⟨-, rfl⟩ := List.cons.inj h
    exact absurd (List.mem_append_right p List.mem_cons_self) hs

/-- Two texts that are divided at their last separators are equal only part by part. -/
theorem append_cons_inj (hs : a ∉ s) (ht : a ∉ t) (h : p ++ a :: s = q ++ a :: t) : p = q ∧ s = t := by
  -- `List.append_cons_inj_of_notMem` asks for a first part without a separator, and a unit may hold some
  rcases List.append_eq_append_iff.1 h with ⟨between, rfl, htail⟩ | ⟨between, rfl, htail⟩
  · obtain rfl := eq_nil_of_cons_eq_append hs htail
    exact ⟨(List.append_nil p).symm, (List.cons.inj htail).2⟩
  · obtain rfl := eq_nil_of_cons_eq_append ht htail
    exact ⟨List.append_nil q, (List.cons.inj htail).2.symm⟩

theorem Target.eq_of_render_eq {x y : Target} (h : x.render = y.render) : x = y := by
  obtain ⟨unit, block⟩ := x
  obtain ⟨unit', block'⟩ := y
  have hchars : unit.toList ++ ':' :: (blockText block).toList = unit'.toList ++ ':' :: (blockText block').toList := by
    simpa [render_eq] using congrArg String.toList h
  obtain ⟨hunit, hblock⟩ := append_cons_inj (colon_notMem_blockText block) (colon_notMem_blockText block') hchars
  rw [String.toList_inj.1 hunit, blockText_inj (String.toList_inj.1 hblock)]

/-! ## Labels -/

namespace Graph

/-- A label up to the quote that ends it, and what comes behind the quote. -/
def readLabel : List Char → Option (List Char × List Char)
  | [] => none
  | '"' :: rest => some ([], rest)
  | '\\' :: 'l' :: rest => (readLabel rest).map fun (label, rest) => ('\n' :: label, rest)
  | '\\' :: c :: rest => (readLabel rest).map fun (label, rest) => (c :: label, rest)
  | c :: rest => (readLabel rest).map fun (label, rest) => (c :: label, rest)

theorem readLabel_labelChars (cs rest : List Char) : readLabel (labelChars cs ++ '"' :: rest) = some (cs, rest) := by
  fun_induction labelChars cs with
  | case1 => rfl
  | case2 cs ih =>
    show readLabel ('\\' :: '"' :: (labelChars cs ++ '"' :: rest)) = _
    rw [readLabel, ih]
    · rfl
    · decide
  | case3 cs ih =>
    show readLabel ('\\' :: '\\' :: (labelChars cs ++ '"' :: rest)) = _
    rw [readLabel, ih]
    · rfl
    · decide
  | case4 cs ih =>
    show readLabel ('\\' :: 'l' :: (labelChars cs ++ '"' :: rest)) = _
    rw [readLabel, ih]
    rfl
  | case5 c cs hquote hescape _ ih =>
    show readLabel (c :: (labelChars cs ++ '"' :: rest)) = _
    rw [readLabel, ih]
    · rfl
    · exact hquote
    · rintro tail rfl -
      exact hescape rfl
    · rintro d tail rfl -
      exact hescape rfl

end Graph

/-! ## Main statement -/

/-- Different targets have different names, whatever their units are called. So they have different labels in drawings:
two texts that start with labels, up to the closing quotes, are equal only if the targets are, and the rest is. -/
theorem Target.render_eq_render_iff (x y : Target) : (x.render = y.render ↔ x = y) ∧
    ∀ rest rest' : List Char, Graph.labelChars x.render.toList ++ '"' :: rest =
      Graph.labelChars y.render.toList ++ '"' :: rest' ↔ x = y ∧ rest = rest' := by
  refine ⟨⟨eq_of_render_eq, congrArg render⟩, fun rest rest' => ⟨fun h => ?_, ?_⟩⟩
  · have hread := congrArg Graph.readLabel h
    rw [Graph.readLabel_labelChars, Graph.readLabel_labelChars] at hread
    obtain ⟨hname, hrest⟩ := Prod.mk.inj (Option.some.inj hread)
    exact ⟨eq_of_render_eq (String.toList_inj.1 hname), hrest⟩
  · rintro ⟨rfl, rfl⟩
    rfl

/-- Units with colons that end like names, before a number and before the sentinel. -/
example : Target.render ⟨"a:root", 7⟩ = "a:root:7" ∧ Target.render (.root "a:7") = "a:7:root" := by
  decide

end CoverSearch
