import CoverSearch.Proofs.Value.Hops

/-!
# The order of fitness values

Sums are rounded in order, so hops with any distance stay at or below the double of one more hop, also where hops have
no doubles of their own. A distance is normalized by two roundings, and the first one is of the divisor. Where that is
not exact, the lesser of two distances may end up with the greater quotient. A quotient is off by one part in `2 ^ 53`
at most. Distances whose quotients differ by a little more than that stay in order, and the others are out of order by
little more than that.

* `Double.hopFitness_le_ofNat` : fewer hops, whatever the distance;
* `Double.Normalizes` : the two roundings of a normalized distance; `Double.Normalizes.bounds` : how far it is off;
* `Double.normalize_le` : distances that stay in order;
* `Double.exists_hopFitness_le` : the others are out of order by one part in `2 ^ 50` at most.
-/

namespace CoverSearch.Double

variable {d y : Float} {p q s t u v : ℚ} {m n : ℕ}

/-! ## Hops -/

/-- Where a number of hops is rounded up, one more is lost. -/
theorem nearest_add_of_lt (hround : Nearest m q) (hm : 2 ^ 53 ≤ m) (hlt : m < q) (hv : 0 ≤ v) (hv1 : v ≤ 1) :
    Nearest (q + v) q := by
  obtain ⟨T, hT, rfl⟩ := hround
  have hpos : (0 : ℚ) < 2 ^ T := by positivity
  have hcast : (2 : ℚ) ^ 53 ≤ m := by exact_mod_cast hm
  have hT1 : 1 ≤ T := by
    by_contra hle
    have hone : (2 : ℚ) ^ T ≤ 1 := zpow_le_one_of_nonpos₀ (by norm_num) (by omega)
    linarith [hT.lt]
  have hge : 2 ^ 52 ≤ roundEven (m / 2 ^ T) := by
    apply le_roundEven
    rw [le_div_iff₀ hpos]
    exact_mod_cast hT.full.resolve_right (by omega)
  have hle : roundEven (m / 2 ^ T) ≤ 2 ^ 53 := by
    apply roundEven_le (by positivity)
    rw [div_le_iff₀ hpos]
    exact_mod_cast hT.lt.le
  apply nearest_add hge hle hT.ge hv
  rcases hT1.eq_or_lt with rfl | hT2
  · -- the number of hops was halfway between two doubles, so the significand is even
    obtain ⟨-, hupper, heven⟩ := roundEven_spec (x := (m : ℚ) / 2 ^ (1 : ℤ)) (by positivity)
    rw [zpow_one] at hlt hupper heven ⊢
    have hsucc : (m : ℚ) + 1 ≤ roundEven (m / 2) * 2 := by exact_mod_cast hlt
    rcases hv1.eq_or_lt with rfl | hv1
    · exact Or.inr ⟨mul_one 2, heven (by linarith)⟩
    · left
      linarith
  · left
    have hfour : (2 : ℚ) ^ (2 : ℤ) ≤ 2 ^ T := zpow_le_zpow_right₀ (by norm_num) hT2
    have hvalue : (2 : ℚ) ^ (2 : ℤ) = 4 := by norm_num
    linarith

/-- Fewer hops are no more than more of them, whatever the distance is. -/
theorem hopFitness_le_ofNat (hd : HasValue d p) (h : m < n) (hn : n ≤ 2 ^ 64) : hopFitness m d ≤ Float.ofNat n := by
  have hcast : (m : ℚ) + 1 ≤ n := by exact_mod_cast h
  rcases lt_or_ge m (2 ^ 53) with hsmall | hlarge
  · exact le_trans (hopFitness_le_ofNat_succ hd hsmall) (ofNat_le_ofNat hsmall h)
  · obtain ⟨v, hv, hv1⟩ := exists_normalize_le_one hd
    have hm : m ≤ 2 ^ 64 := h.le.trans hn
    obtain ⟨q, hq, hq64, hround⟩ := exists_hasValue_ofNat hm
    rw [hopFitness_of_ne (by omega)]
    have hsum := add_rounded hq hv
    rcases le_or_gt q m with hle | hlt
    · apply hsum.mono (ofNat_rounded n) (by linarith)
      linarith [natCast_le_greatest hn]
    · -- the sum is the double of the fewer hops
      have hlost := nearest_add_of_lt hround hlarge hlt hv.nonneg hv1
      obtain ⟨q', hq', hround'⟩ := hsum.exists_value (by linarith [two_pow_64_add_one_le])
      obtain rfl := hlost.unique hround'
      exact Rounded.mono (Or.inl ⟨q, hq', hround⟩) (ofNat_rounded n) (by linarith) (natCast_le_greatest hm)

/-! ## Normalized distances -/

theorem div_add_one_le (hq : 0 ≤ q) (h : q ≤ p) : q / (q + 1) ≤ p / (p + 1) := by
  rw [div_le_div_iff₀ (by linarith) (by linarith)]
  linarith

/-- The two roundings of a normalized distance: of the divisor, and of the quotient. -/
structure Normalizes (p s v : ℚ) : Prop where
  nonneg : 0 ≤ p
  le : p ≤ s
  one_le : 1 ≤ s
  divisor : Nearest (p + 1) s
  quotient : Nearest (p / s) v

/-- One more than the greatest double is rounded back to it. -/
theorem nearest_greatest_add_one : Nearest (greatest + 1) greatest := by
  have hfour : (2 : ℚ) ^ (2 : ℤ) ≤ 2 ^ (971 : ℤ) := zpow_le_zpow_right₀ (by norm_num) (by norm_num)
  apply nearest_add (by norm_num) (by norm_num) (by norm_num) zero_le_one
  exact Or.inl (LT.lt.trans_le (by norm_num) hfour)

theorem exists_normalizes (hd : HasValue d p) : ∃ s v, HasValue (normalize d) v ∧ Normalizes p s v := by
  have hnonneg := hd.nonneg
  rcases hd.le_greatest.lt_or_eq with hlt | rfl
  · obtain ⟨s, hs, hround⟩ := exists_add_one hd hlt
    have hle : p ≤ s := (hd.rounds hround).1 (by linarith)
    have hone : 1 ≤ s := (hasValue_one.rounds hround).1 (by linarith)
    have hquotient : p / s ≤ greatest := (div_le_one_of_le₀ hle (by linarith)).trans one_le_greatest
    obtain ⟨v, hv, hround'⟩ := (div_rounded hd hs (by linarith)).exists_value hquotient
    exact ⟨s, v, hv, hnonneg, hle, hone, hround, hround'⟩
  · have hpos : 0 < greatest := zero_lt_one.trans_le one_le_greatest
    rw [hd.eq hasValue_maxFitness hpos, normalize_maxFitness]
    refine ⟨greatest, 1, hasValue_one, hnonneg, le_rfl, one_le_greatest, nearest_greatest_add_one, ?_⟩
    rw [div_self hpos.ne']
    exact hasValue_one.nearest_self

namespace Normalizes

theorem le_one (h : Normalizes p s v) : v ≤ 1 :=
  h.quotient.mono hasValue_one.nearest_self (div_le_one_of_le₀ h.le (h.nonneg.trans h.le))

/-- The divisor is off by one part in `2 ^ 53` at most, and so is the quotient by it. -/
theorem bounds (h : Normalizes p s v) :
    p / s * (1 - 2 ^ (-53 : ℤ)) ≤ p / (p + 1) ∧ p / (p + 1) ≤ p / s * (1 + 2 ^ (-53 : ℤ)) := by
  have hp := h.nonneg
  have hs : 0 < s := by linarith [h.one_le]
  have hone : 0 < p + 1 := by linarith
  have hsmall : (2 : ℚ) ^ (-1022 : ℤ) ≤ 1 := zpow_le_one_of_nonpos₀ (by norm_num) (by norm_num)
  obtain ⟨hge, hle⟩ := h.divisor.bounds (by linarith)
  constructor
  · rw [div_mul_eq_mul_div, div_le_div_iff₀ hs hone, mul_assoc, mul_comm _ (p + 1)]
    exact mul_le_mul_of_nonneg_left hge hp
  · rw [div_mul_eq_mul_div, div_le_div_iff₀ hone hs, mul_assoc, mul_comm _ (p + 1)]
    exact mul_le_mul_of_nonneg_left hle hp

/-- Distances whose quotients differ enough are normalized in order. -/
theorem le_of_mul_le (hq : Normalizes q t u) (hp : Normalizes p s v)
    (h : q / (q + 1) * (1 + 2 ^ (-51 : ℤ)) ≤ p / (p + 1)) : u ≤ v := by
  apply hq.quotient.mono hp.quotient
  have hupper := hp.bounds.2
  have hlower := hq.bounds.1
  have hnonneg : 0 ≤ q / t := div_nonneg hq.nonneg (hq.nonneg.trans hq.le)
  norm_num at h hupper hlower
  linarith

theorem divisor_natCast (h : Normalizes n s v) (hn : n < 2 ^ 53) : s = n + 1 := by
  obtain ⟨hge, hle⟩ := h.divisor.rounds (n + 1) 0 hn (by norm_num)
  rw [zpow_zero, mul_one, Nat.cast_succ] at hge hle
  exact (hle le_rfl).antisymm (hge le_rfl)

/-- So are whole numbers, which have exact divisors. -/
theorem le_of_natCast (hm : Normalizes m t u) (hn : Normalizes n s v) (h : m ≤ n) (hlt : n < 2 ^ 53) : u ≤ v := by
  apply hm.quotient.mono hn.quotient
  rw [hm.divisor_natCast (h.trans_lt hlt), hn.divisor_natCast hlt]
  exact div_add_one_le m.cast_nonneg (by exact_mod_cast h)

/-! ## Distances out of order -/

/-- The divisor of a very small distance is one. -/
theorem divisor_of_le (h : Normalizes p s v) (hsmall : p ≤ 2 ^ (-53 : ℤ)) : s = 1 := by
  have hone : ((2 ^ 52 : ℕ) : ℚ) * 2 ^ (-52 : ℤ) = 1 := by norm_num
  have hhalf : 2 * (2 : ℚ) ^ (-53 : ℤ) = 2 ^ (-52 : ℤ) := by norm_num
  have hlost : Nearest (1 + p) 1 := by
    rw [← hone]
    apply nearest_add le_rfl (by norm_num) (by norm_num) h.nonneg
    rw [← hhalf]
    rcases hsmall.eq_or_lt with rfl | hlt
    · exact Or.inr ⟨rfl, by decide⟩
    · left
      linarith
  rw [add_comm] at hlost
  exact h.divisor.unique hlost

theorem two_pow_le_quotient (h : Normalizes p s v) (hlarge : 2 ^ (-53 : ℤ) ≤ p) : 2 ^ (-1022 : ℤ) ≤ p / s := by
  have hquotient : 2 ^ (-53 : ℤ) / (2 ^ (-53 : ℤ) + 1) ≤ p / (p + 1) := div_add_one_le (by positivity) hlarge
  have hsmall : (2 : ℚ) ^ (-1022 : ℤ) ≤ 2 ^ (-55 : ℤ) := zpow_le_zpow_right₀ (by norm_num) (by norm_num)
  have hupper := h.bounds.2
  have hnonneg : 0 ≤ p / s := div_nonneg h.nonneg (h.nonneg.trans h.le)
  apply hsmall.trans
  norm_num at hquotient hupper ⊢
  linarith

/-- The lesser of two distances is normalized to little more than the other at most. -/
theorem le_mul (hq : Normalizes q t u) (hp : Normalizes p s v) (h : q ≤ p) : u ≤ v * (1 + 5 * 2 ^ (-53 : ℤ)) := by
  have hordered : q / t ≤ p / s → u ≤ v * (1 + 5 * 2 ^ (-53 : ℤ)) := by
    intro hle
    have hv := hp.quotient.nonneg
    apply (hq.quotient.mono hp.quotient hle).trans
    exact le_mul_of_one_le_right hv (by norm_num)
  rcases le_or_gt p (2 ^ (-53 : ℤ)) with hsmall | hlarge
  · apply hordered
    rw [hp.divisor_of_le hsmall, hq.divisor_of_le (h.trans hsmall), div_one, div_one]
    exact h
  · rcases le_total (q / t) (p / s) with hle | hge
    · exact hordered hle
    · -- both quotients are rounded relatively near
      have hnormal := hp.two_pow_le_quotient hlarge.le
      have hv := (hp.quotient.bounds hnormal).1
      have hu := (hq.quotient.bounds (hnormal.trans hge)).2
      have hupper := hp.bounds.2
      have hlower := hq.bounds.1
      have hreal := div_add_one_le hq.nonneg h
      norm_num at hv hu hupper hlower ⊢
      linarith

end Normalizes

/-! ## Fitness values -/

theorem normalize_le (hy : HasValue y q) (hd : HasValue d p) (h : q ≤ p)
    (hcases : q / (q + 1) * (1 + 2 ^ (-51 : ℤ)) ≤ p / (p + 1) ∨ ∃ m n : ℕ, q = m ∧ p = n ∧ n < 2 ^ 53) :
    normalize y ≤ normalize d := by
  obtain ⟨s, v, hv, hp⟩ := exists_normalizes hd
  obtain ⟨t, u, hu, hq⟩ := exists_normalizes hy
  rw [hu.le_iff hv]
  rcases hcases with hdiffer | ⟨m, n, rfl, rfl, hlt⟩
  · exact hq.le_of_mul_le hp hdiffer
  · exact hq.le_of_natCast hp (by exact_mod_cast h) hlt

theorem hopFitness_le (hy : HasValue y q) (hd : HasValue d p) (hn : n ≤ 2 ^ 64) (h : normalize y ≤ normalize d) :
    hopFitness n y ≤ hopFitness n d := by
  rcases eq_or_ne n 0 with rfl | hne
  · rwa [hopFitness_zero, hopFitness_zero]
  · obtain ⟨N, hN, hN64, -⟩ := exists_hasValue_ofNat hn
    obtain ⟨v, hv, hv1⟩ := exists_normalize_le_one hd
    obtain ⟨u, hu, hu1⟩ := exists_normalize_le_one hy
    rw [hu.le_iff hv] at h
    rw [hopFitness_of_ne hne, hopFitness_of_ne hne]
    apply (add_rounded hN hu).mono (add_rounded hN hv) (by linarith)
    linarith [two_pow_64_add_one_le]

/-- The lesser of two distances, as many hops away, has little more than the fitness of the other at most. -/
theorem exists_hopFitness_le (hy : HasValue y q) (hd : HasValue d p) (hn : n ≤ 2 ^ 64) (h : q ≤ p) :
    ∃ P Q, HasValue (hopFitness n d) P ∧ HasValue (hopFitness n y) Q ∧ Q ≤ P * (1 + 2 ^ (-50 : ℤ)) := by
  obtain ⟨s, v, hv, hp⟩ := exists_normalizes hd
  obtain ⟨t, u, hu, hq⟩ := exists_normalizes hy
  have hle := hq.le_mul hp h
  have hv0 := hv.nonneg
  rcases eq_or_ne n 0 with rfl | hne
  · rw [hopFitness_zero, hopFitness_zero]
    refine ⟨v, u, hv, hu, ?_⟩
    norm_num at hle ⊢
    linarith
  · obtain ⟨N, hN, hN64, hround⟩ := exists_hasValue_ofNat hn
    have hN1 : 1 ≤ N := (hasValue_one.rounds hround).1 (by exact_mod_cast Nat.one_le_iff_ne_zero.2 hne)
    have hsmall : (2 : ℚ) ^ (-1022 : ℤ) ≤ 1 := zpow_le_one_of_nonpos₀ (by norm_num) (by norm_num)
    have hrange := two_pow_64_add_one_le
    obtain ⟨P, hP, hroundP⟩ := (add_rounded hN hv).exists_value (by linarith [hp.le_one])
    obtain ⟨Q, hQ, hroundQ⟩ := (add_rounded hN hu).exists_value (by linarith [hq.le_one])
    rw [hopFitness_of_ne hne, hopFitness_of_ne hne]
    refine ⟨P, Q, hP, hQ, ?_⟩
    have hlower := (hroundP.bounds (by linarith)).1
    have hupper := (hroundQ.bounds (by linarith [hu.nonneg])).2
    norm_num at hle hlower hupper ⊢
    linarith

end CoverSearch.Double
