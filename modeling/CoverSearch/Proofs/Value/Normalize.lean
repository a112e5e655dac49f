import CoverSearch.Proofs.Value.Arithmetic

/-!
# Normalized distances

A distance is zero, positive and finite, or infinite. `d / (d + 1)` is rounded twice, but never down to zero: up to one
the quotient is at least half the distance, and from there on at least a half. Two distances are looked at on their own,
the least one, half of which is no double, and the greatest one, since one more may be out of range.

* `Double.exists_value_or_infinity` : the doubles that are not below zero;
* `Double.exists_normalize` : the normalized distance of a positive and finite one is positive and at most one;
* `Double.hopFitness` : the fitness of a distance a number of hops away; `Double.hopFitness_spec` : of a finite one it
  is zero for no hops and no distance alone, of an infinite one it is a NaN.
-/

namespace CoverSearch.Double
open Float.Model (UnpackedFloat Format)

variable {d x y : Float} {p q X Y : ℚ} {n : ℕ}

/-! ## Bounds -/

/-- A rounded number stays on its side of every double. -/
theorem HasValue.rounds (hy : HasValue y q) (hround : Nearest X p) : (q ≤ X → q ≤ p) ∧ (X ≤ q → p ≤ q) := by
  obtain ⟨t, n, f, -, -, hn, -, rfl⟩ := hy
  exact hround.rounds n f hn.significand_lt.le hn.exponent_ge

/-- So it does of twice a double, which may be out of range. -/
theorem HasValue.rounds_two_mul (hy : HasValue y q) (hround : Nearest X p) (hX : X ≤ 2 * q) : p ≤ 2 * q := by
  obtain ⟨t, n, f, -, -, hn, -, rfl⟩ := hy
  have hdouble : 2 * ((n : ℚ) * 2 ^ f) = n * 2 ^ (f + 1) := by
    rw [zpow_add_one₀ (by norm_num)]
    ring
  rw [hdouble] at hX ⊢
  have hge := hn.exponent_ge
  exact (hround.rounds n (f + 1) hn.significand_lt.le (by omega)).2 hX

theorem HasValue.le_infinity (hy : HasValue y q) (hx : x.toModel.unpack = .infinity .positive) : y ≤ x := by
  obtain ⟨t, n, f, hyu, ht, -⟩ := hy
  rw [le_iff_place, place?, place?, hx, hyu, unpackedPlace?_ofSignificand ht]
  refine ⟨_, rfl, _, rfl, ?_⟩
  split <;> exact (Place.mk_lt_mk.2 (Or.inl (by norm_num))).le

/-- Numbers are rounded in order. -/
theorem Rounded.mono (hx : Rounded x X) (hy : Rounded y Y) (h : X ≤ Y) (hX : X ≤ greatest) : x ≤ y := by
  obtain ⟨p, hx, hround⟩ := hx.exists_value hX
  rcases hy with ⟨q, hy, hround'⟩ | ⟨hy, -⟩
  · rw [hx.le_iff hy]
    exact hround.mono hround' h
  · exact hx.le_infinity hy

theorem Rounded.ge (h : Rounded x X) (hy : HasValue y q) (hX : q ≤ X) : y ≤ x := hy.rounded.mono h hX hy.le_greatest

theorem Rounded.le (h : Rounded x X) (hy : HasValue y q) (hX : X ≤ q) : x ≤ y :=
  h.mono hy.rounded hX (hX.trans hy.le_greatest)

/-! ## Distances -/

theorem hasValue_one : HasValue 1 1 :=
  ⟨.positive, 2 ^ 52, -52, rfl, fun _ => rfl, ⟨by norm_num, by norm_num, Or.inl (by norm_num)⟩, by norm_num,
    by norm_num⟩

theorem hasValue_maxFitness : HasValue maxFitness greatest :=
  ⟨.positive, 2 ^ 53 - 1, 971, rfl, fun _ => rfl, ⟨by norm_num, by norm_num, Or.inl (by norm_num)⟩, by norm_num, rfl⟩

/-- The least positive double. -/
theorem hasValue_ofBits_one : HasValue (Float.ofBits 1) (1 * 2 ^ (-1074 : ℤ)) :=
  ⟨.positive, 1, -1074, rfl, fun _ => rfl, ⟨by norm_num, by norm_num, Or.inr rfl⟩, by norm_num, by rw [Nat.cast_one]⟩

theorem HasValue.beq_iff (hx : HasValue x p) (hy : HasValue y q) : (x == y) = true ↔ p = q := by
  rw [beq_iff_le, hx.le_iff hy, hy.le_iff hx]
  exact antisymm_iff

theorem HasValue.eq (hx : HasValue x p) (hy : HasValue y p) (hp : 0 < p) : x = y := by
  apply eq_of_beq ((hx.beq_iff hy).2 rfl)
  rw [← Bool.not_eq_true, hx.beq_iff hasValue_zero]
  exact hp.ne'

/-- A double that is not below zero has a value or is infinite. -/
theorem exists_value_or_infinity (h : 0 ≤ d) : (∃ p, HasValue d p) ∨ d.toModel.unpack = .infinity .positive := by
  rw [le_iff_place] at h
  obtain ⟨x, hx, y, hy, hxy⟩ := h
  obtain rfl : Place.mk 0 0 0 = x := Option.some.inj hx
  rcases hd : d.toModel.unpack with ⟨_ | _⟩ | _ | s | ⟨_ | _, m, e, hm⟩ <;> rw [Option.mem_def, place?, hd] at hy
  case infinity.positive => exact Or.inr rfl
  case zero =>
    refine Or.inl ⟨0, s, 0, -1074, hd, fun h => absurd rfl h, ⟨by norm_num, by norm_num, Or.inr rfl⟩, by norm_num, ?_⟩
    rw [Nat.cast_zero, zero_mul]
  case finite.positive =>
    obtain ⟨hcanonical, he⟩ := unpack_finite hd
    refine Or.inl ⟨_, .positive, m, e, ?_, fun _ => rfl, hcanonical, he, rfl⟩
    rw [hd, ofSignificand_of_ne hm.ne']
  case notANumber => exact absurd hy.symm (Option.some_ne_none y)
  all_goals
    rw [← Option.some.inj hy] at hxy
    exact absurd hxy (not_le.2 (Place.mk_lt_mk.2 (Or.inl (by norm_num))))

/-! ## Quotients of distances -/

theorem one_le_greatest : 1 ≤ greatest := by
  have h := scaled_le_greatest (show 1 < 2 ^ 53 by norm_num) (show (0 : ℤ) ≤ 971 by norm_num)
  simpa using h

/-- A quotient that is at most one, and no less than the least positive double, is rounded to such a number. -/
theorem exists_div (hx : HasValue x p) (hy : HasValue y q) (hq : 0 < q) (hle : p ≤ q)
    (hleast : q * 2 ^ (-1074 : ℤ) ≤ p) : ∃ v, HasValue (x / y) v ∧ 0 < v ∧ v ≤ 1 := by
  have hquotient : p / q ≤ 1 := (div_le_one hq).2 hle
  obtain ⟨v, hv, hround⟩ := (div_rounded hx hy hq).exists_value (hquotient.trans one_le_greatest)
  refine ⟨v, hv, ?_, ?_⟩
  · have hge := (hround.rounds 1 (-1074) (by norm_num) le_rfl).1
    rw [Nat.cast_one, one_mul, le_div_iff₀ hq, mul_comm] at hge
    exact LT.lt.trans_le (by positivity) (hge hleast)
  · have hle' := (hround.rounds 1 0 (by norm_num) (by norm_num)).2
    rw [Nat.cast_one, one_mul, zpow_zero] at hle'
    exact hle' hquotient

/-- Below the greatest double, one more is still in range. -/
theorem add_one_le_greatest (hd : HasValue d p) (hlt : p < greatest) : p + 1 ≤ greatest := by
  obtain ⟨s, m, e, -, -, hm, -, rfl⟩ := hd
  have hprev : (m : ℚ) * 2 ^ e ≤ (2 ^ 53 - 2 : ℕ) * 2 ^ (971 : ℤ) := by
    rw [greatest, scaled_lt_iff hm ⟨by norm_num, by norm_num, Or.inl (by norm_num)⟩] at hlt
    rw [← not_lt, scaled_lt_iff ⟨by norm_num, by norm_num, Or.inl (by norm_num)⟩ hm]
    omega
  have hone : (1 : ℚ) ≤ 2 ^ (971 : ℤ) := one_le_zpow₀ (by norm_num) (by norm_num)
  calc (m : ℚ) * 2 ^ e + 1 ≤ (2 ^ 53 - 2 : ℕ) * 2 ^ (971 : ℤ) + 2 ^ (971 : ℤ) := add_le_add hprev hone
    _ = ((2 ^ 53 - 2 : ℕ) + 1) * 2 ^ (971 : ℤ) := by rw [add_mul, one_mul]
    _ = greatest := by rw [greatest, show 2 ^ 53 - 1 = 2 ^ 53 - 2 + 1 by norm_num, Nat.cast_add_one]

/-- The least positive double is the only one below the one after it. -/
theorem HasValue.eq_least (hd : HasValue d p) (hp : 0 < p) (hlt : p < 2 * 2 ^ (-1074 : ℤ)) :
    p = 1 * 2 ^ (-1074 : ℤ) := by
  obtain ⟨s, m, e, -, -, hm, -, rfl⟩ := hd
  have hm0 : m ≠ 0 := by
    rintro rfl
    simp at hp
  have htwo : Canonical 2 (-1074) := ⟨by norm_num, le_rfl, Or.inr rfl⟩
  have hge := hm.exponent_ge
  have hcases := (scaled_lt_iff hm htwo).1 (by exact_mod_cast hlt)
  obtain ⟨rfl, rfl⟩ : e = -1074 ∧ m = 1 := by omega
  rw [Nat.cast_one]

/-! ## Normalized distances -/

theorem normalize_least : normalize (Float.ofBits 1) = Float.ofBits 1 := by
  have h : (normalize (Float.ofBits 1) == Float.ofBits 1) = true ∧ (normalize (Float.ofBits 1) == 0) = false := by
    decide +kernel
  exact eq_of_beq h.1 h.2

theorem normalize_maxFitness : normalize maxFitness = 1 := by
  have h : (normalize maxFitness == 1) = true ∧ (normalize maxFitness == 0) = false := by
    decide +kernel
  exact eq_of_beq h.1 h.2

theorem isNaN_normalize (h : d.toModel.unpack = .infinity .positive) : (normalize d).isNaN = true := by
  obtain rfl : d = Float.ofBits 0x7FF0000000000000 := unpack_injective h
  decide +kernel

theorem normalize_zero (hd : HasValue d 0) : HasValue (normalize d) 0 := by
  have hsum : HasValue (d + 1) (1 : ℕ) := by
    refine hasValue_natCast ?_ (by norm_num)
    simpa using add_rounded hd hasValue_one
  have hquotient : Rounded (normalize d) (0 : ℕ) := by
    unfold normalize
    simpa using div_rounded hd hsum (by norm_num)
  simpa using hasValue_natCast hquotient (by norm_num)

theorem exists_add_one (hd : HasValue d p) (hlt : p < greatest) : ∃ q, HasValue (d + 1) q ∧ Nearest (p + 1) q :=
  (add_rounded hd hasValue_one).exists_value (add_one_le_greatest hd hlt)

theorem exists_normalize (hd : HasValue d p) (hp : 0 < p) : ∃ v, HasValue (normalize d) v ∧ 0 < v ∧ v ≤ 1 := by
  rcases lt_or_ge p (2 * 2 ^ (-1074 : ℤ)) with hsmall | hsmall
  · -- a quotient of a half would round to either side
    obtain rfl := hd.eq_least hp hsmall
    rw [hd.eq hasValue_ofBits_one hp, normalize_least]
    refine ⟨_, hasValue_ofBits_one, hp, ?_⟩
    rw [one_mul]
    exact zpow_le_one_of_nonpos₀ (by norm_num) (by norm_num)
  rcases lt_or_ge p greatest with hlarge | hlarge
  · obtain ⟨q, hq, hround⟩ := exists_add_one hd hlarge
    have hle : p ≤ q := (hd.rounds hround).1 (by linarith)
    -- the sum is at most twice the greater of the distance and one
    refine exists_div hd hq (hp.trans_le hle) hle ?_
    rcases le_total p 1 with hone | hone
    · have hq2 : q ≤ 2 * 1 := hasValue_one.rounds_two_mul hround (by linarith)
      calc q * 2 ^ (-1074 : ℤ) ≤ 2 * 1 * 2 ^ (-1074 : ℤ) := mul_le_mul_of_nonneg_right hq2 (by positivity)
        _ ≤ p := by rwa [mul_one]
    · have hq2 : q ≤ 2 * p := hd.rounds_two_mul hround (by linarith)
      have hhalf : (2 : ℚ) ^ (-1074 : ℤ) ≤ 2 ^ (-1 : ℤ) := zpow_le_zpow_right₀ (by norm_num) (by norm_num)
      calc q * 2 ^ (-1074 : ℤ) ≤ 2 * p * 2 ^ (-1 : ℤ) := mul_le_mul hq2 hhalf (by positivity) (by positivity)
        _ = p := by
          rw [zpow_neg_one]
          ring
  · obtain rfl : p = greatest := hd.le_greatest.antisymm hlarge
    rw [hd.eq hasValue_maxFitness hp, normalize_maxFitness]
    exact ⟨1, hasValue_one, one_pos, le_rfl⟩

/-! ## Distances some hops away -/

/-- The fitness of a distance that is recorded some hops away. -/
def hopFitness (n : ℕ) (d : Float) : Float := if n = 0 then normalize d else Float.ofNat n + normalize d

theorem one_le_ofNat_add (hn : n ≠ 0) (hy : HasValue y q) : 1 ≤ Float.ofNat n + y := by
  have hone : (1 : ℚ) ≤ n := by exact_mod_cast Nat.one_le_iff_ne_zero.2 hn
  rcases ofNat_rounded n with ⟨p, hp, hround⟩ | ⟨hinfinity, -⟩
  · have hsum := add_rounded hp hy
    refine hsum.ge hasValue_one ?_
    have hle := (hasValue_one.rounds hround).1 hone
    linarith [hy.nonneg]
  · -- as many hops as no double can count
    have hsum : (Float.ofNat n + y).toModel.unpack = .infinity .positive := by
      obtain ⟨s, m, e, hy, -⟩ := hy
      have hadd : UnpackedFloat.add Format.binary64 (.infinity .positive) (ofSignificand s m e) =
          .infinity .positive := by
        by_cases hm : m = 0
        · rw [hm]
          rfl
        · rw [ofSignificand_of_ne hm]
          rfl
      show (Float.Model.pack (UnpackedFloat.add Format.binary64 _ _)).unpack = _
      rw [hinfinity, hy, hadd]
      rfl
    exact hasValue_one.le_infinity hsum

theorem isNaN_iff : x.isNaN = true ↔ x.toModel.unpack = .notANumber := by
  show x.toModel.unpack.isNaN = true ↔ _
  cases x.toModel.unpack with
  | notANumber => exact iff_of_true rfl rfl
  | infinity s => exact iff_of_false Bool.false_ne_true (by rintro ⟨⟩)
  | zero s => exact iff_of_false Bool.false_ne_true (by rintro ⟨⟩)
  | finite s m e hm => exact iff_of_false Bool.false_ne_true (by rintro ⟨⟩)

theorem isNaN_add (x : Float) (hy : y.isNaN = true) : (x + y).isNaN = true := by
  rw [isNaN_iff] at hy ⊢
  have hadd : ∀ u, UnpackedFloat.add Format.binary64 u .notANumber = .notANumber := by
    rintro (_ | _ | _ | _) <;> rfl
  show (Float.Model.pack (UnpackedFloat.add Format.binary64 _ _)).unpack = _
  rw [hy, hadd]
  rfl

theorem hopFitness_of_value (hd : HasValue d p) (n : ℕ) :
    0 ≤ hopFitness n d ∧ ((hopFitness n d == 0) = true ↔ n = 0 ∧ (d == 0) = true) := by
  obtain ⟨v, hv, hzero⟩ : ∃ v, HasValue (normalize d) v ∧ (v = 0 ↔ p = 0) := by
    rcases hd.nonneg.eq_or_lt with rfl | hp
    · exact ⟨0, normalize_zero hd, Iff.rfl⟩
    · obtain ⟨v, hv, hpos, -⟩ := exists_normalize hd hp
      exact ⟨v, hv, iff_of_false hpos.ne' hp.ne'⟩
  rw [hd.beq_iff hasValue_zero]
  unfold hopFitness
  split <;> rename_i hn
  · rw [hasValue_zero.le_iff hv, hv.beq_iff hasValue_zero]
    exact ⟨hv.nonneg, by simp [hn, hzero]⟩
  · have hone := one_le_ofNat_add hn hv
    have hnotle : ¬ (1 : Float) ≤ 0 := by
      rw [hasValue_one.le_iff hasValue_zero]
      norm_num
    refine ⟨le_trans ((hasValue_zero.le_iff hasValue_one).2 zero_le_one) hone, ?_⟩
    refine iff_of_false (fun hbeq => hnotle (le_trans hone (beq_iff_le.1 hbeq).1)) fun h => hn h.1

theorem hopFitness_of_infinity (h : d.toModel.unpack = .infinity .positive) (n : ℕ) :
    (hopFitness n d).isNaN = true := by
  unfold hopFitness
  split
  · exact isNaN_normalize h
  · exact isNaN_add _ (isNaN_normalize h)

/-- A distance that is not below zero. Infinite ones are those above `maxFitness`. -/
theorem hopFitness_spec (hd : 0 ≤ d) (n : ℕ) :
    ((hopFitness n d).isNaN = true ↔ maxFitness < d) ∧ (hopFitness n d ≤ 0 ↔ n = 0 ∧ (d == 0) = true) ∧
      ((hopFitness n d == 0) = true ↔ n = 0 ∧ (d == 0) = true) := by
  rcases exists_value_or_infinity hd with ⟨p, hp⟩ | hinfinity
  · obtain ⟨hge, hbeq⟩ := hopFitness_of_value hp n
    have hle : d ≤ maxFitness := (hp.le_iff hasValue_maxFitness).2 hp.le_greatest
    refine ⟨?_, ?_, hbeq⟩
    · rw [isNaN_of_le_right hge]
      exact iff_of_false Bool.false_ne_true ((le_iff_not_lt hp.isNaN_eq_false isNaN_maxFitness).1 hle)
    · rw [← hbeq, beq_iff_le, and_iff_left hge]
  · have hnan := hopFitness_of_infinity hinfinity n
    have hnot : ¬ hopFitness n d ≤ 0 := not_le_of_isNaN hnan
    obtain rfl : d = Float.ofBits 0x7FF0000000000000 := unpack_injective hinfinity
    have hne : ¬ (Float.ofBits 0x7FF0000000000000 == 0) = true := by decide +kernel
    refine ⟨iff_of_true hnan (by decide +kernel), iff_of_false hnot fun h => hne h.2, ?_⟩
    exact iff_of_false (fun hbeq => hnot (beq_iff_le.1 hbeq).1) fun h => hne h.2

end CoverSearch.Double
