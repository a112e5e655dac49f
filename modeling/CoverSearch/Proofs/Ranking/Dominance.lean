import CoverSearch.Proofs.Value.Order
import CoverSearch.Ranking.Fronts
import Mathlib.Order.Defs.Unbundled

/-!
# Pareto dominance as a relation

`Row.Dominates` says what the one pass of `paretoCompare` decides: nowhere greater, and somewhere less. It is a strict
order on rows of numbers. With NaNs it is still irreflexive and asymmetric, but no longer transitive.

* `paretoCompare_eq_left`, `paretoCompare_eq_right` : the comparison of two rows, in both directions;
* `Row.Dominates.trans` : transitivity, through a row of numbers;
* `memberBeats_pareto` : the relation that non-dominated sorting peels;
* `Strategy.twice` : a rule whose comparison asks in one direction and then in the other;
* `pareto_orderLaws` : the comparison is that of the rule itself, its answer turns round with the rows, and dominance is
  a strict order among rows of numbers.
-/

namespace CoverSearch

/-- The first row is nowhere greater than the second on some columns, and less in one of them. -/
def Row.Dominates (a b : Row) (columns : List Nat) : Prop :=
  (∀ c ∈ columns, ¬ b.value c < a.value c) ∧ ∃ c ∈ columns, a.value c < b.value c

/-- Row `i` of a matrix dominates row `j` on some columns. -/
def Matrix.Dominates (m : Matrix) (columns : List Nat) (i j : Nat) : Prop := (m.row i).Dominates (m.row j) columns

/-- No entry is a NaN. -/
def Matrix.NaNFree (m : Matrix) : Prop := ∀ r ∈ m.rows, ∀ x ∈ r, x.isNaN = false

/-! ## Entries -/

theorem getD_mem_or {α : Type} (xs : Array α) (i : Nat) (d : α) : xs.getD i d ∈ xs ∨ xs.getD i d = d := by
  rw [Array.getD_eq_getD_getElem?]
  rcases h : xs[i]? with _ | x
  · exact Or.inr rfl
  · exact Or.inl (Array.mem_of_getElem? h)

/-- Entries at all positions are numbers, as those outside a matrix read zero. -/
theorem Matrix.NaNFree.value {m : Matrix} (h : m.NaNFree) (i c : Nat) : (m.value i c).isNaN = false := by
  have hzero : (0 : Float).isNaN = false := by decide
  rcases getD_mem_or m.rows i #[] with hr | hr
  · rcases getD_mem_or (m.row i) c 0 with hx | hx
    · exact h _ hr _ hx
    · exact (congrArg Float.isNaN hx).trans hzero
  · have hempty : m.value i c = 0 := by
      show (m.rows.getD i #[]).getD c 0 = 0
      rw [hr]
      rfl
    rw [hempty, hzero]

/-! ## One comparison -/

theorem advantages_eq (a b : Row) (columns : List Nat) : advantages a b columns =
    (columns.any fun c => a.value c < b.value c, columns.any fun c => b.value c < a.value c) := by
  have hfold : ∀ found : Bool × Bool, columns.foldl (fun found j =>
      if a.value j < b.value j then (true, found.2)
      else if b.value j < a.value j then (found.1, true)
      else found) found =
      (found.1 || columns.any fun c => a.value c < b.value c, found.2 || columns.any fun c => b.value c < a.value c) := by
    induction columns with
    | nil => simp
    | cons c columns ih =>
      intro found
      rw [List.foldl_cons, ih, List.any_cons, List.any_cons]
      by_cases hab : a.value c < b.value c
      · simp [hab, Double.lt_asymm hab]
      · by_cases hba : b.value c < a.value c <;> simp [hab, hba]
  rw [advantages, hfold]
  simp

theorem paretoCompare_eq_left {a b : Row} {columns : List Nat} :
    paretoCompare a b columns = .left ↔ a.Dominates b columns := by
  have hany : ∀ x y : Row,
      (columns.any fun c => x.value c < y.value c) = true ↔ ∃ c ∈ columns, x.value c < y.value c := by
    simp
  rw [paretoCompare, advantages_eq, Row.Dominates, ← hany a b]
  have hnone : (∀ c ∈ columns, ¬ b.value c < a.value c) ↔ ¬ (columns.any fun c => b.value c < a.value c) = true := by
    simp
  rw [hnone]
  generalize (columns.any fun c => a.value c < b.value c) = x
  generalize (columns.any fun c => b.value c < a.value c) = y
  cases x <;> cases y <;> simp

theorem paretoCompare_swap (a b : Row) (columns : List Nat) :
    paretoCompare a b columns = .right ↔ paretoCompare b a columns = .left := by
  rw [paretoCompare, paretoCompare, advantages_eq, advantages_eq]
  generalize (columns.any fun c => a.value c < b.value c) = x
  generalize (columns.any fun c => b.value c < a.value c) = y
  cases x <;> cases y <;> simp

theorem paretoCompare_eq_right {a b : Row} {columns : List Nat} :
    paretoCompare a b columns = .right ↔ b.Dominates a columns := by
  rw [paretoCompare_swap, paretoCompare_eq_left]

/-! ## A strict order -/

namespace Row.Dominates
variable {a b c : Row} {columns : List Nat}

theorem irrefl (a : Row) (columns : List Nat) : ¬ a.Dominates a columns := by
  rintro ⟨_, c, _, hlt⟩
  exact Double.lt_irrefl _ hlt

theorem asymm (h : a.Dominates b columns) : ¬ b.Dominates a columns := by
  rintro ⟨hle, _⟩
  obtain ⟨c, hc, hlt⟩ := h.2
  exact hle c hc hlt

theorem trans (hb : ∀ c ∈ columns, (b.value c).isNaN = false) (hc : ∀ j ∈ columns, (c.value j).isNaN = false)
    (hab : a.Dominates b columns) (hbc : b.Dominates c columns) : a.Dominates c columns := by
  refine ⟨fun j hj => Double.not_lt_trans (hb j hj) (hbc.1 j hj) (hab.1 j hj), ?_⟩
  obtain ⟨j, hj, hlt⟩ := hab.2
  exact ⟨j, hj, Double.lt_of_lt_of_not_lt (hc j hj) hlt (hbc.1 j hj)⟩

end Row.Dominates

/-! ## Members -/

theorem beats_iff {compare : Nat → Nat → Dominance} (dominates : Nat → Nat → Prop)
    (hleft : ∀ i j, compare i j = .left ↔ dominates i j) (hright : ∀ i j, compare i j = .right ↔ dominates j i)
    (hirrefl : ∀ i, ¬ dominates i i) (i j : Nat) : beats compare i j = true ↔ dominates i j := by
  rw [beats]
  rcases Nat.lt_trichotomy i j with h | rfl | h
  · rw [if_pos h, beq_iff_eq, hleft]
  · simp [hirrefl]
  · rw [if_neg (by omega), if_pos h, beq_iff_eq, hright]

/-- Sorting by Pareto dominance peels the relation of the members' rows. -/
theorem memberBeats_pareto (m : Matrix) (members : Array Nat) (columns : List Nat) (i j : Nat) :
    memberBeats pareto m members columns i j = true ↔ m.Dominates columns (members.getD i 0) (members.getD j 0) :=
  beats_iff (fun i j => m.Dominates columns (members.getD i 0) (members.getD j 0))
    (fun _ _ => paretoCompare_eq_left) (fun _ _ => paretoCompare_eq_right) (fun _ => Row.Dominates.irrefl _ _) i j

/-! ## Both directions -/

/-- The answer for the rows in the other order. -/
def Dominance.swap : Dominance → Dominance
  | .left => .right
  | .right => .left
  | .neither => .neither

/-- The rule whose comparison asks whether the first row dominates the second and then whether the second does the
first. -/
def Strategy.twice (s : Strategy) : Strategy := { dominates := s.dominates, reads := s.reads }

theorem pareto_dominates {a b : Row} {columns : List Nat} :
    pareto.dominates a b columns = true ↔ a.Dominates b columns :=
  beq_iff_eq.trans paretoCompare_eq_left

theorem compare_twice_pareto (a b : Row) (columns : List Nat) :
    pareto.twice.compare a b columns = pareto.compare a b columns := by
  show (if pareto.dominates a b columns then Dominance.left
    else if pareto.dominates b a columns then .right else .neither) = paretoCompare a b columns
  simp only [pareto_dominates, ← paretoCompare_eq_left (a := a), ← paretoCompare_eq_right (a := a)]
  cases paretoCompare a b columns <;> rfl

theorem compare_pareto_swap (a b : Row) (columns : List Nat) :
    pareto.compare b a columns = (pareto.compare a b columns).swap := by
  show paretoCompare b a columns = (paretoCompare a b columns).swap
  have hright := paretoCompare_swap a b columns
  have hleft := paretoCompare_swap b a columns
  cases hab : paretoCompare a b columns with
  | left => exact hleft.2 hab
  | right => exact hright.1 hab
  | neither =>
    rw [hab] at hleft hright
    cases hba : paretoCompare b a columns with
    | left => cases hright.2 hba
    | right => cases hleft.1 hba
    | neither => rfl

/-- Rows with the same entries do not dominate each other. -/
theorem Row.not_dominates_of_same {a b : Row} {columns : List Nat}
    (h : ∀ j ∈ columns, Double.Same (a.value j) (b.value j)) : ¬ a.Dominates b columns := by
  rintro ⟨-, j, hj, hlt⟩
  exact (h j hj).not_lt hlt

/-- Every entry in the given columns is a number. -/
def Row.NumbersOn (r : Row) (columns : List Nat) : Prop := ∀ j ∈ columns, (r.value j).isNaN = false

instance (r : Row) (columns : List Nat) : Decidable (r.NumbersOn columns) :=
  inferInstanceAs (Decidable (∀ j ∈ columns, _))

namespace Strategy
variable {s : Strategy} {a b : Row} {columns : List Nat}

theorem compare?_of_fits (ha : s.fits columns a = true) (hb : s.fits columns b = true) :
    s.compare? a b columns = .ok (s.compare a b columns) :=
  if_pos (Bool.and_eq_true_iff.2 ⟨ha, hb⟩)

theorem dominates?_of_fits (ha : s.fits columns a = true) (hb : s.fits columns b = true) :
    s.dominates? a b columns = .ok (s.dominates a b columns) :=
  if_pos (Bool.and_eq_true_iff.2 ⟨ha, hb⟩)

end Strategy

/-- Among rows of numbers that have the columns. -/
theorem isStrictOrder_pareto (columns : List Nat) :
    IsStrictOrder {r : Row // pareto.fits columns r = true ∧ r.NumbersOn columns}
      fun a b => pareto.dominates? a b columns = .ok true := by
  have hdominates : ∀ a b : {r : Row // pareto.fits columns r = true ∧ r.NumbersOn columns},
      pareto.dominates? a b columns = .ok true ↔ a.1.Dominates b.1 columns := by
    intro a b
    rw [Strategy.dominates?_of_fits a.2.1 b.2.1, Except.ok.injEq, pareto_dominates]
  exact {
    irrefl := fun a h => Row.Dominates.irrefl a.1 columns ((hdominates a a).1 h)
    trans := fun a b c hab hbc =>
      (hdominates a c).2 (.trans b.2.2 c.2.2 ((hdominates a b).1 hab) ((hdominates b c).1 hbc)) }

/-- With NaNs as well, comparing rows that have the columns gives the answer of two questions, one in each direction,
and the answer turns round with the rows. No row dominates itself, one that dominates it, or one with the same entries;
and among rows of numbers dominance is a strict order. -/
theorem pareto_orderLaws (a b : Row) (columns : List Nat) (ha : pareto.fits columns a = true)
    (hb : pareto.fits columns b = true) :
    (∃ d, pareto.compare? a b columns = .ok d ∧ pareto.twice.compare? a b columns = .ok d ∧
      pareto.compare? b a columns = .ok d.swap) ∧
    pareto.dominates? a a columns = .ok false ∧
    (pareto.dominates? a b columns = .ok true → pareto.dominates? b a columns = .ok false) ∧
    ((∀ j ∈ columns, Double.Same (a.value j) (b.value j)) →
      pareto.dominates? a b columns = .ok false ∧ pareto.dominates? b a columns = .ok false) ∧
    IsStrictOrder {r : Row // pareto.fits columns r = true ∧ r.NumbersOn columns}
      fun a b => pareto.dominates? a b columns = .ok true := by
  have hnot : ∀ {x y : Row}, ¬ x.Dominates y columns → pareto.dominates x y columns = false :=
    fun h => Bool.eq_false_iff.2 (mt pareto_dominates.1 h)
  refine ⟨⟨pareto.compare a b columns, Strategy.compare?_of_fits ha hb, ?_, ?_⟩, ?_, ?_, ?_,
    isStrictOrder_pareto columns⟩
  · rw [Strategy.compare?_of_fits (s := pareto.twice) ha hb, compare_twice_pareto]
  · rw [Strategy.compare?_of_fits hb ha, compare_pareto_swap]
  · rw [Strategy.dominates?_of_fits ha ha, hnot (Row.Dominates.irrefl a columns)]
  · rw [Strategy.dominates?_of_fits ha hb, Strategy.dominates?_of_fits hb ha, Except.ok.injEq, pareto_dominates]
    exact fun h => congrArg _ (hnot h.asymm)
  · intro hsame
    rw [Strategy.dominates?_of_fits ha hb, Strategy.dominates?_of_fits hb ha,
      hnot (Row.not_dominates_of_same hsame), hnot (Row.not_dominates_of_same fun j hj => (hsame j hj).symm)]
    exact ⟨rfl, rfl⟩

/-- A row that lacks a number dominates in a column looked at twice, rows that differ in the sign of a zero do not, and
three rows of numbers are in order. -/
theorem pareto_orderLaws_missingNumber :
    (pareto.compare? #[0 / 0, -0.0, 1] #[3, 0, 2] [2, 0, 1, 2] = .ok .left ∧
      pareto.twice.compare? #[0 / 0, -0.0, 1] #[3, 0, 2] [2, 0, 1, 2] = .ok .left ∧
      pareto.compare? #[3, 0, 2] #[0 / 0, -0.0, 1] [2, 0, 1, 2] = .ok .right ∧
      pareto.dominates? #[3, 0, 2] #[0 / 0, -0.0, 1] [2, 0, 1, 2] = .ok false) ∧
    ((∀ j ∈ [0, 1], Double.Same (Row.value #[0 / 0, -0.0] j) (Row.value #[0 / 0, 0] j)) ∧
      pareto.dominates? #[0 / 0, -0.0] #[0 / 0, 0] [0, 1] = .ok false) ∧
    (pareto.dominates? #[0, 1] #[1, 1] [0, 1] = .ok true ∧ pareto.dominates? #[1, 1] #[1, 2] [0, 1] = .ok true ∧
      pareto.dominates? #[0, 1] #[1, 2] [0, 1] = .ok true) := by
  have hleft : pareto.compare #[0 / 0, -0.0, 1] #[3, 0, 2] [2, 0, 1, 2] = .left := by decide +kernel
  have hsame : ∀ j ∈ [0, 1], Double.Same (Row.value #[0 / 0, -0.0] j) (Row.value #[0 / 0, 0] j) := by
    show ∀ j ∈ [0, 1], _ ∨ _
    decide +kernel
  have hrows : (pareto.dominates #[0, 1] #[1, 1] [0, 1] = true ∧ pareto.dominates #[1, 1] #[1, 2] [0, 1] = true) ∧
      Row.NumbersOn #[0, 1] [0, 1] ∧ Row.NumbersOn #[1, 1] [0, 1] ∧ Row.NumbersOn #[1, 2] [0, 1] := by
    decide +kernel
  obtain ⟨⟨d, hd, htwice, hswap⟩, -, hasymm, -, -⟩ := pareto_orderLaws #[0 / 0, -0.0, 1] #[3, 0, 2] [2, 0, 1, 2] rfl rfl
  obtain rfl : d = .left := Except.ok.inj (hd.symm.trans ((Strategy.compare?_of_fits rfl rfl).trans (congrArg _ hleft)))
  have hdominates : pareto.dominates? #[0 / 0, -0.0, 1] #[3, 0, 2] [2, 0, 1, 2] = .ok true :=
    (Strategy.dominates?_of_fits rfl rfl).trans (congrArg _ (beq_iff_eq.2 hleft))
  obtain ⟨-, -, -, heq, hstrict⟩ := pareto_orderLaws #[0 / 0, -0.0] #[0 / 0, 0] [0, 1] rfl rfl
  obtain ⟨⟨hab, hbc⟩, ha, hb, hc⟩ := hrows
  have hab : pareto.dominates? #[0, 1] #[1, 1] [0, 1] = .ok true :=
    (Strategy.dominates?_of_fits rfl rfl).trans (congrArg _ hab)
  have hbc : pareto.dominates? #[1, 1] #[1, 2] [0, 1] = .ok true :=
    (Strategy.dominates?_of_fits rfl rfl).trans (congrArg _ hbc)
  exact ⟨⟨hd, htwice, hswap, hasymm hdominates⟩, ⟨hsame, (heq hsame).1⟩, hab, hbc,
    hstrict.trans ⟨#[0, 1], rfl, ha⟩ ⟨#[1, 1], rfl, hb⟩ ⟨#[1, 2], rfl, hc⟩ hab hbc⟩

/-- Through an entry that is no number, dominance does not carry over. -/
example : pareto.dominates #[2, 0] #[0 / 0, 1] [0, 1] = true ∧ pareto.dominates #[0 / 0, 1] #[1, 2] [0, 1] = true ∧
    pareto.dominates #[2, 0] #[1, 2] [0, 1] = false := by
  decide +kernel

end CoverSearch
