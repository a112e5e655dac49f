import CoverSearch.Value
import Mathlib.Data.Prod.Lex
import Mathlib.Order.Compare

/-!
# The order of doubles

Doubles are compared by class (sign, zero, infinity), then by exponent, then by significand. `Double.place?` writes the
three as one key of a linear order, which a NaN does not have, so that comparisons are read off keys:

* `Double.lt_iff_place`, `Double.le_iff_place` : `<` and `≤` as the order of keys;
* `Double.lt_irrefl`, `Double.lt_trans` : `<` is a strict order, NaNs included;
* `Double.not_lt_trans`, `Double.le_iff_not_lt` : among numbers "not less" is transitive, and the same as `≤`;
* `Double.beq_iff_place` : `==` as equality of keys; `Double.lt_congr_left` : `<` does not tell equal doubles apart;
* `Double.Same` : equality that takes a NaN for equal to a NaN; `Double.same_iff_place` : it is equality of keys or of
  their absence.
-/

namespace CoverSearch.Double
open Float.Model (UnpackedFloat)

/-- Class, exponent and significand; of a negative number all three are negated. -/
abbrev Place := ℤ ×ₗ ℤ ×ₗ ℤ

def Place.mk (class_ exponent significand : ℤ) : Place := toLex (class_, toLex (exponent, significand))

theorem Place.compare_mk (a b c d e f : ℤ) :
    compare (Place.mk a b c) (Place.mk d e f) = (compare a d).then ((compare b e).then (compare c f)) := rfl

/-- Where an unpacked double stands; a NaN stands nowhere. -/
def unpackedPlace? : UnpackedFloat → Option Place
  | .notANumber => none
  | .infinity .positive => some (Place.mk 2 0 0)
  | .infinity .negative => some (Place.mk (-2) 0 0)
  | .zero _ => some (Place.mk 0 0 0)
  | .finite .positive m e _ => some (Place.mk 1 e m)
  | .finite .negative m e _ => some (Place.mk (-1) (-e) (-m))

/-- Where a double stands; a NaN stands nowhere. -/
def place? (x : Float) : Option Place := unpackedPlace? x.toModel.unpack

theorem compare_neg_int (a b : ℤ) : compare (-a) (-b) = (compare a b).swap := by
  rw [Int.compare_swap, Int.compare_eq_ite_lt, Int.compare_eq_ite_lt]
  simp only [Int.neg_lt_neg_iff]

theorem compare_cast_int (m n : ℕ) : compare (m : ℤ) (n : ℤ) = compare m n := by
  rw [Int.compare_eq_ite_lt, Nat.compare_eq_ite_lt]
  simp only [Int.ofNat_lt]

theorem compare_eq_place (a b : UnpackedFloat) :
    a.compare b = (unpackedPlace? a).bind fun x => (unpackedPlace? b).map fun y => compare x y := by
  rcases a with ⟨_ | _⟩ | _ | _ | ⟨_ | _, m, e, hm⟩ <;> rcases b with ⟨_ | _⟩ | _ | _ | ⟨_ | _, n, f, hn⟩ <;> try rfl
  · show some ((compare e f).then (compare m n)).swap =
      some (compare (Place.mk (-1) (-e) (-m)) (Place.mk (-1) (-f) (-n)))
    rw [Place.compare_mk, compare_neg_int e f, compare_neg_int m n, compare_cast_int, Ordering.swap_then]
    rfl
  · show some ((compare e f).then (compare m n)) = some (compare (Place.mk 1 e m) (Place.mk 1 f n))
    rw [Place.compare_mk, compare_cast_int]
    rfl

/-- One double is less than another when its key is. -/
theorem lt_iff_place (a b : Float) : a < b ↔ ∃ x ∈ place? a, ∃ y ∈ place? b, x < y := by
  show decide ((a.toModel.unpack.compare b.toModel.unpack == some .lt) = true) = true ↔ _
  rw [decide_eq_true_iff, compare_eq_place, place?, place?]
  rcases unpackedPlace? a.toModel.unpack with _ | x <;> rcases unpackedPlace? b.toModel.unpack with _ | y
  case some.some => simpa using compare_lt_iff_lt
  all_goals simp

theorem le_iff_place (a b : Float) : a ≤ b ↔ ∃ x ∈ place? a, ∃ y ∈ place? b, x ≤ y := by
  show decide ((a.toModel.unpack.compare b.toModel.unpack).any (·.isLE) = true) = true ↔ _
  rw [decide_eq_true_iff, compare_eq_place, place?, place?]
  rcases unpackedPlace? a.toModel.unpack with _ | x <;> rcases unpackedPlace? b.toModel.unpack with _ | y
  case some.some => simpa [Ordering.isLE_iff_ne_gt] using compare_le_iff_le
  all_goals simp

theorem place?_eq_none (x : Float) : place? x = none ↔ x.isNaN = true := by
  show unpackedPlace? x.toModel.unpack = none ↔ x.toModel.unpack.isNaN = true
  rcases x.toModel.unpack with ⟨_ | _⟩ | _ | _ | ⟨_ | _, m, e, hm⟩
  case notANumber => exact iff_of_true rfl rfl
  all_goals exact iff_of_false (Option.some_ne_none _) Bool.false_ne_true

/-- A number has a key. -/
theorem exists_place {x : Float} (h : x.isNaN = false) : ∃ p, place? x = some p := by
  rw [← Option.isSome_iff_exists, Option.isSome_iff_ne_none, ne_eq, place?_eq_none, h]
  exact Bool.false_ne_true

/-! ## Strict order -/

theorem lt_irrefl (a : Float) : ¬ a < a := by
  rw [lt_iff_place]
  rintro ⟨x, hx, y, hy, hlt⟩
  rw [Option.mem_unique hx hy] at hlt
  exact hlt.ne rfl

theorem lt_trans {a b c : Float} (hab : a < b) (hbc : b < c) : a < c := by
  rw [lt_iff_place] at *
  obtain ⟨x, hx, y, hy, hxy⟩ := hab
  obtain ⟨y', hy', z, hz, hyz⟩ := hbc
  rw [Option.mem_unique hy' hy] at hyz
  exact ⟨x, hx, z, hz, hxy.trans hyz⟩

theorem lt_asymm {a b : Float} (h : a < b) : ¬ b < a := fun h' => lt_irrefl a (lt_trans h h')

/-! ## Numbers -/

/-- What is not less than a number, and the number not less than a third, is not less than the third. -/
theorem not_lt_trans {a b c : Float} (hb : b.isNaN = false) (hab : ¬ a < b) (hbc : ¬ b < c) : ¬ a < c := by
  obtain ⟨y, hy⟩ := exists_place hb
  rw [lt_iff_place] at *
  rintro ⟨x, hx, z, hz, hxz⟩
  have hyx : y ≤ x := not_lt.1 fun h => hab ⟨x, hx, y, hy, h⟩
  have hzy : z ≤ y := not_lt.1 fun h => hbc ⟨y, hy, z, hz, h⟩
  exact absurd hxz (not_lt.2 (hzy.trans hyx))

/-- What is less than a number is less than anything that is no number or not less than it. -/
theorem lt_of_lt_of_not_lt {a b c : Float} (hc : c.isNaN = false) (hab : a < b) (hcb : ¬ c < b) : a < c := by
  by_contra hac
  exact not_lt_trans hc hac hcb hab

theorem isNaN_maxFitness : maxFitness.isNaN = false := by decide +kernel

theorem isNaN_zero : (0 : Float).isNaN = false := by decide +kernel

theorem isNaN_of_le {a b : Float} (h : a ≤ b) : a.isNaN = false := by
  obtain ⟨x, hx, -⟩ := (le_iff_place a b).1 h
  rw [← Bool.not_eq_true, ← place?_eq_none, hx]
  exact Option.some_ne_none x

theorem isNaN_of_le_right {a b : Float} (h : a ≤ b) : b.isNaN = false := by
  obtain ⟨x, hx, y, hy, -⟩ := (le_iff_place a b).1 h
  rw [← Bool.not_eq_true, ← place?_eq_none, hy]
  exact Option.some_ne_none y

theorem not_le_of_isNaN {a b : Float} (h : a.isNaN = true) : ¬ a ≤ b := by
  intro hle
  rw [isNaN_of_le hle] at h
  exact nomatch h

theorem not_lt_of_isNaN_right {a b : Float} (h : b.isNaN = true) : ¬ a < b := by
  intro hlt
  obtain ⟨x, hx, y, hy, -⟩ := (lt_iff_place a b).1 hlt
  rw [← place?_eq_none, hy] at h
  exact nomatch h

theorem le_refl {a : Float} (ha : a.isNaN = false) : a ≤ a := by
  obtain ⟨x, hx⟩ := exists_place ha
  exact (le_iff_place a a).2 ⟨x, hx, x, hx, Std.le_refl x⟩

theorem le_trans {a b c : Float} (hab : a ≤ b) (hbc : b ≤ c) : a ≤ c := by
  rw [le_iff_place] at *
  obtain ⟨x, hx, y, hy, hxy⟩ := hab
  obtain ⟨y', hy', z, hz, hyz⟩ := hbc
  rw [Option.mem_unique hy' hy] at hyz
  exact ⟨x, hx, z, hz, hxy.trans hyz⟩

theorem le_of_lt {a b : Float} (h : a < b) : a ≤ b := by
  obtain ⟨x, hx, y, hy, hxy⟩ := (lt_iff_place a b).1 h
  exact (le_iff_place a b).2 ⟨x, hx, y, hy, hxy.le⟩

theorem le_iff_not_lt {a b : Float} (ha : a.isNaN = false) (hb : b.isNaN = false) : a ≤ b ↔ ¬ b < a := by
  obtain ⟨x, hx⟩ := exists_place ha
  obtain ⟨y, hy⟩ := exists_place hb
  rw [le_iff_place, lt_iff_place]
  simp [hx, hy]

theorem lt_of_lt_of_le {a b c : Float} (hab : a < b) (hbc : b ≤ c) : a < c := by
  have hc := isNaN_of_le_right hbc
  exact lt_of_lt_of_not_lt hc hab ((le_iff_not_lt (isNaN_of_le hbc) hc).1 hbc)

/-! ## Equality -/

/-- Doubles are equal when their keys are, so both zeros are equal and a NaN equals nothing. -/
theorem beq_iff_place (a b : Float) : (a == b) = true ↔ ∃ x ∈ place? a, x ∈ place? b := by
  show (a.toModel.unpack.compare b.toModel.unpack == some .eq) = true ↔ _
  rw [beq_iff_eq, compare_eq_place, place?, place?]
  rcases unpackedPlace? a.toModel.unpack with _ | x <;> rcases unpackedPlace? b.toModel.unpack with _ | y
  case some.some => simpa [compare_eq_iff_eq] using eq_comm
  all_goals simp

theorem beq_iff_le {a b : Float} : (a == b) = true ↔ a ≤ b ∧ b ≤ a := by
  rw [beq_iff_place, le_iff_place, le_iff_place]
  constructor
  · rintro ⟨x, hx, hy⟩
    exact ⟨⟨x, hx, x, hy, le_rfl⟩, x, hy, x, hx, le_rfl⟩
  · rintro ⟨⟨x, hx, y, hy, hxy⟩, y', hy', x', hx', hyx⟩
    obtain rfl := Option.mem_unique hx hx'
    obtain rfl := Option.mem_unique hy hy'
    exact ⟨x, hx, hxy.antisymm hyx ▸ hy⟩

theorem beq_comm (a b : Float) : (a == b) = (b == a) := by
  rw [Bool.eq_iff_iff, beq_iff_place, beq_iff_place]
  exact exists_congr fun _ => and_comm

theorem lt_congr_left {x y z : Float} (h : (x == y) = true) : x < z ↔ y < z := by
  obtain ⟨p, hx, hy⟩ := (beq_iff_place x y).1 h
  rw [lt_iff_place, lt_iff_place, Option.mem_def.1 hx, Option.mem_def.1 hy]

theorem beq_trans {x y z : Float} (hxy : (x == y) = true) (hyz : (y == z) = true) : (x == z) = true := by
  obtain ⟨p, hx, hy⟩ := (beq_iff_place x y).1 hxy
  obtain ⟨q, hy', hz⟩ := (beq_iff_place y z).1 hyz
  obtain rfl := Option.mem_unique hy hy'
  exact (beq_iff_place x z).2 ⟨p, hx, hz⟩

theorem not_lt_of_beq {x y : Float} (h : (x == y) = true) : ¬ x < y := by
  rw [lt_congr_left h]
  exact lt_irrefl y

theorem lt_of_le_of_beq_eq_false {a b : Float} (hle : a ≤ b) (hne : (a == b) = false) : a < b := by
  obtain ⟨x, hx, y, hy, hxy⟩ := (le_iff_place a b).1 hle
  refine (lt_iff_place a b).2 ⟨x, hx, y, hy, lt_of_le_of_ne hxy ?_⟩
  rintro rfl
  rw [(beq_iff_place a b).2 ⟨x, hx, hy⟩] at hne
  exact nomatch hne

/-- Equal numbers, or no number on either side. -/
def Same (x y : Float) : Prop := (x == y) = true ∨ x.isNaN = true ∧ y.isNaN = true

theorem same_iff_place {x y : Float} : Same x y ↔ place? x = place? y := by
  rw [Same, beq_iff_place, ← place?_eq_none, ← place?_eq_none]
  rcases place? x with _ | p <;> rcases place? y with _ | q <;> simp [eq_comm]

namespace Same
variable {x y z : Float}

theorem refl (x : Float) : Same x x := same_iff_place.2 rfl

theorem symm (h : Same x y) : Same y x := same_iff_place.2 (same_iff_place.1 h).symm

theorem trans (hxy : Same x y) (hyz : Same y z) : Same x z :=
  same_iff_place.2 ((same_iff_place.1 hxy).trans (same_iff_place.1 hyz))

theorem lt_congr_right (h : Same x y) : z < x ↔ z < y := by
  rw [lt_iff_place, lt_iff_place, same_iff_place.1 h]

theorem not_lt (h : Same x y) : ¬ x < y := by
  rw [← h.lt_congr_right]
  exact lt_irrefl x

end Same

/-- Numbers of which neither is less are equal. -/
theorem same_of_not_lt {x y : Float} (hx : x.isNaN = false) (hy : y.isNaN = false) (hxy : ¬ x < y) (hyx : ¬ y < x) :
    Same x y :=
  Or.inl (beq_iff_le.2 ⟨(le_iff_not_lt hx hy).2 hyx, (le_iff_not_lt hy hx).2 hxy⟩)

end CoverSearch.Double
