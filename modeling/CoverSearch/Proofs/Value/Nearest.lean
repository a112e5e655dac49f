import Mathlib.Algebra.Order.Field.Power
import Mathlib.Algebra.Order.Floor.Semifield
import Mathlib.Data.Nat.Log
import Mathlib.Data.Rat.Floor
import Mathlib.Tactic.FieldSimp
import Mathlib.Tactic.Linarith
import Mathlib.Tactic.Positivity
import Mathlib.Tactic.Ring

/-!
# The nearest double

A number is rounded to a multiple of its last place, the power of two that leaves it 53 bits, or the least power there
is. Of two multiples that are equally near it goes to the even one. So the outcome depends on the number alone, and it
does not fall when the number grows.

* `roundEven` : the nearest natural number;
* `LastPlace` : the last place of a number; `Nearest` : the double that is nearest to it;
* `Nearest.mono`, `Nearest.unique` : the order of nearest doubles, and that there is one for each number;
* `Nearest.bounds` : it is no farther than one part in `2 ^ 53`;
* `nearest_add` : what is added to a double is lost while it is less than a half of the last place.
-/

namespace CoverSearch.Double

variable {x y δ X Y p q : ℚ} {n K : ℕ} {S T : ℤ}

/-! ## Natural numbers -/

/-- The natural number that is nearest to a number; halfway between two the even one. -/
def roundEven (x : ℚ) : ℕ :=
  if x < ⌊x⌋₊ + 1 / 2 then ⌊x⌋₊ else if x = ⌊x⌋₊ + 1 / 2 then ⌊x⌋₊ + ⌊x⌋₊ % 2 else ⌊x⌋₊ + 1

@[simp] theorem roundEven_natCast (n : ℕ) : roundEven n = n := by
  simp [roundEven]

theorem roundEven_add (hδ : 0 ≤ δ) (h : δ < 1 / 2 ∨ δ = 1 / 2 ∧ Even n) : roundEven (n + δ) = n := by
  have hfloor : ⌊n + δ⌋₊ = n := by
    rw [Nat.floor_eq_iff (by positivity)]
    constructor
    · linarith
    · rcases h with h | ⟨h, -⟩ <;> linarith
  unfold roundEven
  rw [hfloor]
  rcases h with h | ⟨rfl, heven⟩
  · rw [if_pos (by linarith)]
  · rw [if_neg (by linarith), if_pos rfl, Nat.even_iff.1 heven, Nat.add_zero]

/-- It is at most a half away, and even where it is a half above. -/
theorem roundEven_spec (hx : 0 ≤ x) : x - 1 / 2 ≤ roundEven x ∧ roundEven x ≤ x + 1 / 2 ∧
    (roundEven x = x + 1 / 2 → Even (roundEven x)) := by
  have hle := Nat.floor_le hx
  have hlt := Nat.lt_floor_add_one x
  unfold roundEven
  split_ifs with hlow htie
  · exact ⟨by linarith, by linarith, fun h => by linarith⟩
  · have hmod := Nat.mod_two_eq_zero_or_one ⌊x⌋₊
    refine ⟨?_, ?_, fun _ => ?_⟩
    · push_cast
      linarith [Nat.cast_nonneg (α := ℚ) (⌊x⌋₊ % 2)]
    · rcases hmod with hmod | hmod <;> rw [hmod] <;> push_cast <;> linarith
    · rw [Nat.even_iff]
      omega
  · have hhigh := lt_of_le_of_ne (not_lt.1 hlow) (Ne.symm htie)
    push_cast
    exact ⟨by linarith, by linarith, fun h => by linarith⟩

theorem roundEven_mono (hx : 0 ≤ x) (h : x ≤ y) : roundEven x ≤ roundEven y := by
  rcases h.eq_or_lt with rfl | hlt
  · exact le_rfl
  · -- one less could not be within a half of the greater number
    have hupper := (roundEven_spec hx).2.1
    have hlower := (roundEven_spec (hx.trans h)).1
    by_contra hgt
    have hstep : (roundEven y : ℚ) + 1 ≤ roundEven x := by exact_mod_cast not_le.1 hgt
    linarith

theorem roundEven_le (hx : 0 ≤ x) (h : x ≤ n) : roundEven x ≤ n := by
  rw [← roundEven_natCast n]
  exact roundEven_mono hx h

theorem le_roundEven (h : n ≤ x) : n ≤ roundEven x := by
  rw [← roundEven_natCast n]
  exact roundEven_mono n.cast_nonneg h

/-! ## The last place -/

/-- The last place of a number that is not negative leaves it 53 bits, or it is the least one. -/
structure LastPlace (X : ℚ) (T : ℤ) : Prop where
  nonneg : 0 ≤ X
  ge : -1074 ≤ T
  lt : X < 2 ^ 53 * 2 ^ T
  full : 2 ^ 52 * 2 ^ T ≤ X ∨ T = -1074

theorem two_pow_53_mul (T : ℤ) : (2 : ℚ) ^ 53 * 2 ^ T = 2 ^ 52 * 2 ^ (T + 1) := by
  rw [zpow_add_one₀ (by norm_num)]
  ring

theorem two_pow_53_mul_le (h : S < T) : (2 : ℚ) ^ 53 * 2 ^ S ≤ 2 ^ 52 * 2 ^ T := by
  rw [two_pow_53_mul]
  exact mul_le_mul_of_nonneg_left (zpow_le_zpow_right₀ (by norm_num) h) (by positivity)

theorem LastPlace.le (hX : LastPlace X S) (hY : LastPlace Y T) (h : X ≤ Y) : S ≤ T := by
  by_contra hlt
  rw [not_le] at hlt
  have hfull := hX.full.resolve_right (by linarith [hY.ge])
  linarith [hY.lt, two_pow_53_mul_le hlt]

/-! ## The nearest double -/

/-- The double that is nearest to a number that is not negative; halfway between two the one with the even significand.
-/
def Nearest (X q : ℚ) : Prop := ∃ T, LastPlace X T ∧ q = roundEven (X / 2 ^ T) * 2 ^ T

namespace Nearest

theorem nonneg (h : Nearest X q) : 0 ≤ q := by
  obtain ⟨T, -, rfl⟩ := h
  positivity

theorem mono (hX : Nearest X p) (hY : Nearest Y q) (h : X ≤ Y) : p ≤ q := by
  obtain ⟨S, hS, rfl⟩ := hX
  obtain ⟨T, hT, rfl⟩ := hY
  have hX0 := hS.nonneg
  have hposS : (0 : ℚ) < 2 ^ S := by positivity
  have hposT : (0 : ℚ) < 2 ^ T := by positivity
  rcases (hS.le hT h).eq_or_lt with rfl | hlt
  · have hround : roundEven (X / 2 ^ S) ≤ roundEven (Y / 2 ^ S) :=
      roundEven_mono (by positivity) (div_le_div_of_nonneg_right h hposS.le)
    gcongr
  · -- the power of two between the two places lies between
    have hupper : roundEven (X / 2 ^ S) ≤ 2 ^ 53 := by
      apply roundEven_le (by positivity)
      rw [div_le_iff₀ hposS]
      exact_mod_cast hS.lt.le
    have hlower : 2 ^ 52 ≤ roundEven (Y / 2 ^ T) := by
      apply le_roundEven
      rw [le_div_iff₀ hposT]
      exact_mod_cast hT.full.resolve_right (by linarith [hS.ge])
    calc (roundEven (X / 2 ^ S) : ℚ) * 2 ^ S ≤ 2 ^ 53 * 2 ^ S := by
          gcongr
          exact_mod_cast hupper
      _ ≤ 2 ^ 52 * 2 ^ T := two_pow_53_mul_le hlt
      _ ≤ roundEven (Y / 2 ^ T) * 2 ^ T := by
          gcongr
          exact_mod_cast hlower

theorem unique (hp : Nearest X p) (hq : Nearest X q) : p = q := (hp.mono hq le_rfl).antisymm (hq.mono hp le_rfl)

/-- Above the least numbers it is relatively near. -/
theorem bounds (h : Nearest X q) (hX : 2 ^ (-1022 : ℤ) ≤ X) :
    X * (1 - 2 ^ (-53 : ℤ)) ≤ q ∧ q ≤ X * (1 + 2 ^ (-53 : ℤ)) := by
  obtain ⟨T, hT, rfl⟩ := h
  have hpos : (0 : ℚ) < 2 ^ T := by positivity
  have hX0 := hT.nonneg
  have hfull : 2 ^ 52 * 2 ^ T ≤ X := by
    rcases hT.full with hfull | rfl
    · exact hfull
    · refine LE.le.trans (le_of_eq ?_) hX
      rw [← zpow_natCast, ← zpow_add₀ (by norm_num)]
      norm_num
  obtain ⟨hlower, hupper, -⟩ := roundEven_spec (x := X / 2 ^ T) (by positivity)
  have hcancel : X / 2 ^ T * 2 ^ T = X := div_mul_cancel₀ X hpos.ne'
  have hge := mul_le_mul_of_nonneg_right hlower hpos.le
  have hle := mul_le_mul_of_nonneg_right hupper hpos.le
  rw [sub_mul, hcancel] at hge
  rw [add_mul, hcancel] at hle
  have hunit : (1 : ℚ) / 2 * 2 ^ T ≤ X * 2 ^ (-53 : ℤ) := by
    rw [show (2 : ℚ) ^ (-53 : ℤ) = 1 / 2 ^ 53 by norm_num, mul_one_div, le_div_iff₀ (by norm_num)]
    linarith
  constructor <;> linarith

end Nearest

/-- What is added to a double is lost while it is less than a half of the last place, or a half behind an even
significand. -/
theorem nearest_add (hK : 2 ^ 52 ≤ K) (hK' : K ≤ 2 ^ 53) (hT : -1074 ≤ T) (hδ : 0 ≤ δ)
    (h : 2 * δ < 2 ^ T ∨ 2 * δ = 2 ^ T ∧ Even K) : Nearest (K * 2 ^ T + δ) (K * 2 ^ T) := by
  have hpos : (0 : ℚ) < 2 ^ T := by positivity
  have hle : 2 * δ ≤ 2 ^ T := h.elim le_of_lt fun h => h.1.le
  have hge : (2 : ℚ) ^ 52 * 2 ^ T ≤ K * 2 ^ T := by
    gcongr
    exact_mod_cast hK
  rcases hK'.eq_or_lt with rfl | hlt
  · -- the last place of the double is twice as much
    have hvalue : ((2 ^ 53 : ℕ) : ℚ) * 2 ^ T = (2 ^ 52 : ℕ) * 2 ^ (T + 1) := by
      push_cast
      exact two_pow_53_mul T
    have hpos' : (0 : ℚ) < 2 ^ (T + 1) := by positivity
    have hdouble : (2 : ℚ) ^ (T + 1) = 2 * 2 ^ T := by rw [zpow_add_one₀ (by norm_num), mul_comm]
    rw [hvalue]
    refine ⟨T + 1, ⟨by positivity, by linarith, ?_, Or.inl ?_⟩, ?_⟩
    · push_cast
      linarith
    · push_cast
      linarith
    · rw [add_div, mul_div_cancel_right₀ _ hpos'.ne', roundEven_add (by positivity)]
      left
      rw [div_lt_iff₀ hpos']
      linarith
  · refine ⟨T, ⟨by positivity, hT, ?_, Or.inl (by linarith)⟩, ?_⟩
    · have hsucc : (K : ℚ) + 1 ≤ 2 ^ 53 := by exact_mod_cast hlt
      have := mul_le_mul_of_nonneg_right hsucc hpos.le
      linarith
    · rw [add_div, mul_div_cancel_right₀ _ hpos.ne', roundEven_add (by positivity)]
      rw [div_lt_iff₀ hpos, div_eq_iff hpos.ne']
      refine h.imp (fun h => by linarith) fun ⟨h, heven⟩ => ⟨by linarith, heven⟩

end CoverSearch.Double
