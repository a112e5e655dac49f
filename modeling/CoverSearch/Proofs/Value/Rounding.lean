import CoverSearch.Proofs.Value.Nearest
import CoverSearch.Proofs.Value.Packing

/-!
# Rounding to a double

A number `x` is held as a significand with a round bit and a sticky bit. `Brackets` says what the bits promise of `x`:
the significand is its floor, the round bit tells whether the rest is a half or more, and the sticky bit is unset for a
whole number of halves only. Shifting to the right keeps it.

* `Double.exists_roundWithAccuracy` : rounding ends in a canonical significand, that of the nearest double;
* `Double.Nearest.rounds` : no number of at most 53 bits lies strictly between `x` and the nearest double. This is all
  of `Rounds`, whichever way a tie goes, so every bound that is itself a double passes through a rounding.
-/

namespace CoverSearch.Double
open Float.Model (UnpackedFloat Format totalExponent)
open Float.Model.UnpackedFloat (Sign Accuracy ExtendedMantissa shiftToTargetExponent shiftToExponent roundWithAccuracy)

variable {em : ExtendedMantissa} {x y : ℚ} {m n : ℕ} {e k : ℤ}

theorem cast_mul_two_pow (m k : ℕ) (e : ℤ) : ((m * 2 ^ k : ℕ) : ℚ) * 2 ^ e = m * 2 ^ (e + k) := by
  rw [zpow_add₀ (by norm_num), zpow_natCast]
  push_cast
  ring

/-- The significand of a number, with bits that tell what is cut off. -/
structure Brackets (em : ExtendedMantissa) (x : ℚ) : Prop where
  le : em.mantissa ≤ x
  lt : x < em.mantissa + 1
  round_iff : em.roundBit = true ↔ em.mantissa + 1 / 2 ≤ x
  sticky_iff : em.stickyBit = false ↔ x = em.mantissa ∨ x = em.mantissa + 1 / 2

theorem Brackets.exact_iff (h : Brackets em x) : (em.roundBit || em.stickyBit) = false ↔ x = em.mantissa := by
  rw [Bool.or_eq_false_iff, h.sticky_iff, ← Bool.not_eq_true, h.round_iff]
  constructor
  · rintro ⟨hlt, heq | heq⟩
    · exact heq
    · exact absurd heq.ge hlt
  · intro heq
    exact ⟨by linarith, Or.inl heq⟩

theorem Brackets.shiftRightOne (h : Brackets em x) : Brackets em.shiftRightOne (x / 2) := by
  have hexact := h.exact_iff
  obtain ⟨hle, hlt, -, -⟩ := h
  have hsplit : (em.mantissa : ℚ) = 2 * (em.mantissa / 2 : ℕ) + (em.mantissa % 2 : ℕ) := by
    exact_mod_cast (Nat.div_add_mod em.mantissa 2).symm
  have hbit : em.mantissa % 2 = 0 ∨ em.mantissa % 2 = 1 := by omega
  unfold ExtendedMantissa.shiftRightOne
  rcases hbit with hbit | hbit
  · rw [hbit, Nat.cast_zero, add_zero] at hsplit
    refine ⟨by linarith, by linarith, ?_, ?_⟩
    · simp only [hbit, bne_self_eq_false, Bool.false_eq_true, false_iff, not_le]
      linarith
    · rw [hexact]
      constructor
      · intro h
        left
        linarith
      · rintro (h | h) <;> linarith
  · rw [hbit, Nat.cast_one] at hsplit
    refine ⟨by linarith, by linarith, ?_, ?_⟩
    · simp only [hbit]
      exact iff_of_true rfl (by linarith)
    · rw [hexact]
      constructor
      · intro h
        right
        linarith
      · rintro (h | h) <;> linarith

theorem Brackets.shiftRight (h : Brackets em x) (n : ℕ) : Brackets (em >>> n) (x / 2 ^ n) := by
  show Brackets (n.repeat ExtendedMantissa.shiftRightOne em) (x / 2 ^ n)
  induction n with
  | zero => simpa [Nat.repeat] using h
  | succ n ih =>
    rw [Nat.repeat, pow_succ, ← div_div]
    exact ih.shiftRightOne

theorem Brackets.roundedMantissa (h : Brackets em x) : em.roundedMantissa = roundEven x := by
  obtain ⟨hle, hlt, hround, hsticky⟩ := h
  have hfloor : ⌊x⌋₊ = em.mantissa := (Nat.floor_eq_iff (em.mantissa.cast_nonneg.trans hle)).2 ⟨hle, hlt⟩
  unfold roundEven
  rw [hfloor]
  rcases em with ⟨m, r, s⟩
  cases r <;> cases s <;> simp only [Bool.false_eq_true, Bool.true_eq_false, true_iff, false_iff, not_or, not_le]
    at hround hsticky
  · rw [if_pos hround]
    rfl
  · rw [if_pos hround]
    rfl
  · have htie : x = m + 1 / 2 := hsticky.resolve_left (by linarith)
    rw [if_neg (by linarith), if_pos htie]
    rfl
  · rw [if_neg (by linarith), if_neg hsticky.2]
    rfl

theorem mantissa_shiftRight (em : ExtendedMantissa) (n : ℕ) : (em >>> n).mantissa = em.mantissa / 2 ^ n := by
  show (n.repeat ExtendedMantissa.shiftRightOne em).mantissa = _
  induction n with
  | zero => simp [Nat.repeat]
  | succ n ih => rw [Nat.repeat, ExtendedMantissa.shiftRightOne, ih, Nat.div_div_eq_div_mul, pow_succ]

theorem brackets_exact (m : ℕ) : Brackets (.ofMantissaAndAccuracy m .exact) m := by
  constructor <;> simp [ExtendedMantissa.ofMantissaAndAccuracy]

/-! ## Rounding to 53 bits -/

theorem targetExponent_eq (m : ℕ) (e : ℤ) :
    Format.binary64.targetExponent (totalExponent m e) = max (m.log2 + 1 + e - 53) (-1074) := rfl

theorem significand_lt (h : m.log2 ≤ 52 + n) : m / 2 ^ n < 2 ^ 53 := by
  rw [Nat.div_lt_iff_lt_mul (by positivity), ← pow_add]
  calc m < 2 ^ (m.log2 + 1) := Nat.lt_log2_self
    _ ≤ 2 ^ (53 + n) := Nat.pow_le_pow_right (by decide) (by omega)

theorem le_significand (hm : m ≠ 0) (h : m.log2 = 52 + n) : 2 ^ 52 ≤ m / 2 ^ n := by
  rw [Nat.le_div_iff_mul_le (by positivity), ← pow_add, ← h]
  exact Nat.log2_self_le hm

/-- A significand that has been rounded fits, after one more shift at most. -/
theorem exists_shiftToTargetExponent {R : ℕ} {T : ℤ} (hR : R ≤ 2 ^ 53) (hT : -1074 ≤ T)
    (hfull : 2 ^ 52 ≤ R ∨ T = -1074) :
    ∃ M E, (shiftToTargetExponent Format.binary64 R T .exact).1.mantissa = M ∧
      (shiftToTargetExponent Format.binary64 R T .exact).2 = E ∧ Canonical M E ∧ (M : ℚ) * 2 ^ E = R * 2 ^ T := by
  refine ⟨_, _, rfl, rfl, ?_⟩
  unfold shiftToTargetExponent shiftToExponent
  rw [targetExponent_eq]
  simp only [mantissa_shiftRight]
  show Canonical (R / 2 ^ _) _ ∧ ((R / 2 ^ _ : ℕ) : ℚ) * 2 ^ _ = _
  by_cases hlt : R < 2 ^ 53
  · have hlog : R.log2 ≤ 52 := by
      rcases eq_or_ne R 0 with rfl | hne
      · decide
      · exact Nat.le_of_lt_succ ((Nat.log2_lt hne).2 hlt)
    have hshift : (max ((R.log2 : ℤ) + 1 + T - 53) (-1074) - T).toNat = 0 := by omega
    rw [hshift, pow_zero, Nat.div_one, Nat.cast_zero, add_zero]
    exact ⟨⟨hlt, hT, hfull⟩, rfl⟩
  · obtain rfl : R = 2 ^ 53 := by omega
    have hshift : (max (((2 ^ 53).log2 : ℤ) + 1 + T - 53) (-1074) - T).toNat = 1 := by
      rw [Nat.log2_two_pow]
      omega
    rw [hshift, show 2 ^ 53 / 2 ^ 1 = 2 ^ 52 by norm_num, Nat.cast_one]
    refine ⟨⟨by norm_num, by omega, Or.inl (by norm_num)⟩, ?_⟩
    rw [zpow_add_one₀ (by norm_num)]
    push_cast
    ring

/-- No number of at most 53 bits lies between two numbers. -/
def Rounds (x y : ℚ) : Prop :=
  ∀ (n : ℕ) (k : ℤ), n ≤ 2 ^ 53 → -1074 ≤ k →
    (n * 2 ^ k ≤ x → n * 2 ^ k ≤ y) ∧ (x ≤ n * 2 ^ k → y ≤ n * 2 ^ k)

theorem rounds_of_neighbour {R : ℕ} {T : ℤ} {X : ℚ} (hR : ∀ n : ℕ, (n ≤ X → n ≤ R) ∧ (X ≤ n → R ≤ n))
    (hfull : (2 : ℚ) ^ 52 ≤ X ∨ T = -1074) : Rounds (X * 2 ^ T) (R * 2 ^ T) := by
  intro n k hn hk
  have hT : (0 : ℚ) < 2 ^ T := by positivity
  by_cases hkT : T ≤ k
  · obtain ⟨j, rfl⟩ := Int.le.dest hkT
    rw [← cast_mul_two_pow, mul_le_mul_iff_left₀ hT, mul_le_mul_iff_left₀ hT, mul_le_mul_iff_left₀ hT,
      mul_le_mul_iff_left₀ hT, Nat.cast_le, Nat.cast_le]
    exact hR _
  · have hX := hfull.resolve_right (by omega)
    have hsmall : (n : ℚ) * 2 ^ k ≤ 2 ^ 52 * 2 ^ T := by
      have hn' : (n : ℚ) ≤ 2 ^ 53 := by exact_mod_cast hn
      have hk' : (2 : ℚ) ^ k ≤ 2 ^ (T - 1) := zpow_le_zpow_right₀ (by norm_num) (by omega)
      calc (n : ℚ) * 2 ^ k ≤ 2 ^ 53 * 2 ^ (T - 1) := mul_le_mul hn' hk' (by positivity) (by positivity)
        _ = 2 ^ 52 * 2 ^ T := by
          rw [zpow_sub_one₀ (by norm_num)]
          ring
    have hRge : (2 : ℚ) ^ 52 ≤ R := by exact_mod_cast (hR (2 ^ 52)).1 (by exact_mod_cast hX)
    refine ⟨fun _ => hsmall.trans (by gcongr), fun hle => ?_⟩
    -- here the number is the least of its exponent
    have hXle : X ≤ 2 ^ 52 := le_of_mul_le_mul_right (hle.trans hsmall) hT
    have hRle : (R : ℚ) ≤ 2 ^ 52 := by exact_mod_cast (hR (2 ^ 52)).2 (by exact_mod_cast hXle)
    exact (mul_le_mul_of_nonneg_right (hRle.trans hX) hT.le).trans hle

theorem Nearest.rounds (h : Nearest x y) : Rounds x y := by
  obtain ⟨T, hT, rfl⟩ := h
  have hx := hT.nonneg
  have hpos : (0 : ℚ) < 2 ^ T := by positivity
  have hcancel : x / 2 ^ T * 2 ^ T = x := div_mul_cancel₀ x hpos.ne'
  have hround := rounds_of_neighbour (X := x / 2 ^ T) (T := T)
    (fun n => ⟨le_roundEven, roundEven_le (by positivity)⟩) (hT.full.imp_left (le_div_iff₀ hpos).2)
  rwa [hcancel] at hround

/-- The unpacked number of a sign, a significand and an exponent. -/
def ofSignificand (s : Sign) (m : ℕ) (e : ℤ) : UnpackedFloat :=
  if h : m = 0 then .zero s else .finite s m e (Nat.pos_of_ne_zero h)

theorem ofSignificand_zero (s : Sign) (e : ℤ) : ofSignificand s 0 e = .zero s := rfl

theorem ofSignificand_of_ne (hm : m ≠ 0) (s : Sign) (e : ℤ) :
    ofSignificand s m e = .finite s m e (Nat.pos_of_ne_zero hm) := dif_neg hm

theorem shiftToTargetExponent_eq (acc : Accuracy) (hn : e + n = max (m.log2 + 1 + e - 53) (-1074)) :
    shiftToTargetExponent Format.binary64 m e acc = (ExtendedMantissa.ofMantissaAndAccuracy m acc >>> n, e + n) := by
  unfold shiftToTargetExponent shiftToExponent
  rw [targetExponent_eq, ← hn]
  simp

theorem mantissa_ofMantissaAndAccuracy (m : ℕ) (acc : Accuracy) :
    (ExtendedMantissa.ofMantissaAndAccuracy m acc).mantissa = m := by
  rcases acc with _ | o
  · rfl
  · cases o <;> rfl

/-- Rounding gives the nearest double, when its exponent does not have to be lowered. -/
theorem exists_roundWithAccuracy {acc : Accuracy} (s : Sign) (h : Brackets (.ofMantissaAndAccuracy m acc) x)
    (he : e ≤ max (m.log2 + 1 + e - 53) (-1074)) :
    ∃ M E, roundWithAccuracy Format.binary64 s m e acc = ofSignificand s M E ∧ Canonical M E ∧
      Nearest (x * 2 ^ e) (M * 2 ^ E) := by
  obtain ⟨n, hn⟩ := Int.le.dest he
  have hX := h.shiftRight n
  have hlt : m / 2 ^ n < 2 ^ 53 := significand_lt (by omega)
  have hfull : 2 ^ 52 ≤ m / 2 ^ n ∨ e + n = -1074 := by
    by_cases hmin : e + n = -1074
    · exact Or.inr hmin
    · refine Or.inl (le_significand ?_ (by omega))
      rintro rfl
      rw [Nat.log2_zero] at hn
      omega
  rw [← mantissa_ofMantissaAndAccuracy m acc, ← mantissa_shiftRight] at hlt hfull
  have hvalue : x * 2 ^ e = x / 2 ^ n * 2 ^ (e + n) := by
    rw [zpow_add₀ (by norm_num), zpow_natCast, mul_left_comm, div_mul_cancel₀ _ (by positivity), mul_comm]
  have hnonneg : 0 ≤ x / 2 ^ n := (Nat.cast_nonneg _).trans hX.le
  have hplace : LastPlace (x / 2 ^ n * 2 ^ (e + n)) (e + n) := by
    refine ⟨by positivity, by omega, ?_, hfull.imp_left fun hge => ?_⟩
    · gcongr
      exact hX.lt.trans_le (by exact_mod_cast hlt)
    · gcongr
      exact LE.le.trans (by exact_mod_cast hge) hX.le
  have hR : roundEven (x / 2 ^ n) ≤ 2 ^ 53 :=
    roundEven_le hnonneg (hX.lt.le.trans (by exact_mod_cast hlt))
  have hRfull : 2 ^ 52 ≤ roundEven (x / 2 ^ n) ∨ e + n = -1074 :=
    hfull.imp_left fun hge => le_roundEven (LE.le.trans (by exact_mod_cast hge) hX.le)
  obtain ⟨_, _, rfl, rfl, hcanonical, hscaled⟩ := exists_shiftToTargetExponent hR (by omega) hRfull
  refine ⟨_, _, ?_, hcanonical, e + n, hvalue ▸ hplace, ?_⟩
  · unfold roundWithAccuracy
    rw [shiftToTargetExponent_eq acc hn]
    dsimp only
    rw [hX.roundedMantissa]
    rfl
  · rw [hscaled, hvalue, mul_div_cancel_right₀ _ (by positivity)]

end CoverSearch.Double
