import CoverSearch.Proofs.Value.Normalize
import Mathlib.Algebra.Order.Archimedean.Basic

/-!
# Hops and distances

A normalized distance is at most one, so a fitness some hops away stays between the doubles of its number of hops and of
one more. It reaches the upper one when the sum rounds up to it, but not while the distance is small: up to `2 ^ 51`,
less for more hops.

* `Double.hasValue_ofNat`, `Double.ofNat_mono` : the doubles of hops are exact up to `2 ^ 53`, and in order;
* `Double.ofNat_le_hopFitness`, `Double.hopFitness_le_ofNat_succ` : the bounds of a fitness;
* `Double.hopFitness_lt_ofNat_succ` : a distance that is small enough stays strictly below the upper one;
* `Double.lt_or_tie` : numbers on two levels are told apart unless they meet at the double between them;
* `Double.hopFitness_le_maxFitness` : as many hops as there are blocks stay in range.
-/

namespace CoverSearch.Double

variable {d x y : Float} {p q X : ℚ} {m n k : ℕ}

/-! ## Doubles of hops -/

theorem two_pow_le_greatest (hk : k ≤ 971) : (2 : ℚ) ^ k ≤ greatest := by
  have h := scaled_le_greatest (show 1 < 2 ^ 53 by norm_num) (show (k : ℤ) ≤ 971 by omega)
  simpa using h

theorem two_pow_64_add_one_le : (2 : ℚ) ^ 64 + 1 ≤ greatest :=
  LE.le.trans (by norm_num) (two_pow_le_greatest (show 65 ≤ 971 by norm_num))

theorem natCast_le_greatest (hn : n ≤ 2 ^ 64) : (n : ℚ) ≤ greatest := by
  have hcast : (n : ℚ) ≤ 2 ^ 64 := by exact_mod_cast hn
  linarith [two_pow_64_add_one_le]

theorem hasValue_ofNat (hn : n ≤ 2 ^ 53) : HasValue (Float.ofNat n) n := by
  obtain ⟨q, hq, hround⟩ := (ofNat_rounded n).exists_value (natCast_le_greatest (hn.trans (by norm_num)))
  obtain ⟨hle, hge⟩ := hround.rounds n 0 hn (by norm_num)
  rw [zpow_zero, mul_one] at hle hge
  rwa [(hle le_rfl).antisymm (hge le_rfl)]

theorem ofNat_mono (hm : m ≤ 2 ^ 64) (h : m ≤ n) : Float.ofNat m ≤ Float.ofNat n :=
  (ofNat_rounded m).mono (ofNat_rounded n) (by exact_mod_cast h) (natCast_le_greatest hm)

theorem ofNat_le_ofNat (hm : m ≤ 2 ^ 53) (h : m ≤ n) : Float.ofNat m ≤ Float.ofNat n :=
  ofNat_mono (hm.trans (by norm_num)) h

theorem le_of_ofNat_le (hm : m < 2 ^ 53) (h : Float.ofNat n ≤ Float.ofNat m) : n ≤ m := by
  by_contra hlt
  have hsucc : Float.ofNat (m + 1) ≤ Float.ofNat m := le_trans (ofNat_le_ofNat hm (not_le.1 hlt)) h
  rw [(hasValue_ofNat hm).le_iff (hasValue_ofNat hm.le), Nat.cast_succ] at hsucc
  linarith

/-- As many hops as there can be blocks are in range. -/
theorem exists_hasValue_ofNat (hn : n ≤ 2 ^ 64) : ∃ q, HasValue (Float.ofNat n) q ∧ q ≤ 2 ^ 64 ∧ Nearest n q := by
  obtain ⟨q, hq, hround⟩ := (ofNat_rounded n).exists_value (natCast_le_greatest hn)
  have hle := (hround.rounds 1 64 (by norm_num) (by norm_num)).2
  rw [Nat.cast_one, one_mul] at hle
  exact ⟨q, hq, hle (by exact_mod_cast hn), hround⟩

/-! ## Bounds -/

theorem zero_lt_maxFitness : 0 < maxFitness :=
  (hasValue_zero.lt_iff hasValue_maxFitness).2 (zero_lt_one.trans_le one_le_greatest)

theorem HasValue.inRange (hd : HasValue d p) : 0 ≤ d ∧ d ≤ maxFitness :=
  ⟨(hasValue_zero.le_iff hd).2 hd.nonneg, (hd.le_iff hasValue_maxFitness).2 hd.le_greatest⟩

theorem exists_value (h : 0 ≤ d ∧ d ≤ maxFitness) : ∃ p, HasValue d p := by
  apply (exists_value_or_infinity h.1).resolve_right
  intro hinfinity
  obtain rfl : d = Float.ofBits 0x7FF0000000000000 := unpack_injective hinfinity
  exact absurd h.2 (by decide +kernel)

theorem exists_normalize_le_one (hd : HasValue d p) : ∃ v, HasValue (normalize d) v ∧ v ≤ 1 := by
  rcases hd.nonneg.eq_or_lt with rfl | hp
  · exact ⟨0, normalize_zero hd, zero_le_one⟩
  · obtain ⟨v, hv, -, hle⟩ := exists_normalize hd hp
    exact ⟨v, hv, hle⟩

theorem hopFitness_zero (d : Float) : hopFitness 0 d = normalize d := if_pos rfl

theorem hopFitness_of_ne (hn : n ≠ 0) (d : Float) : hopFitness n d = Float.ofNat n + normalize d := if_neg hn

theorem ofNat_le_hopFitness (hd : HasValue d p) (hn : n ≤ 2 ^ 64) : Float.ofNat n ≤ hopFitness n d := by
  obtain ⟨v, hv, -⟩ := exists_normalize_le_one hd
  have hnonneg := hv.nonneg
  rcases eq_or_ne n 0 with rfl | hne
  · rw [hopFitness_zero, (hasValue_ofNat (by norm_num)).le_iff hv]
    simpa using hnonneg
  · obtain ⟨q, hq, -⟩ := exists_hasValue_ofNat hn
    rw [hopFitness_of_ne hne]
    exact (add_rounded hq hv).ge hq (by linarith)

theorem hopFitness_le_ofNat_succ (hd : HasValue d p) (hn : n < 2 ^ 53) : hopFitness n d ≤ Float.ofNat (n + 1) := by
  obtain ⟨v, hv, hle⟩ := exists_normalize_le_one hd
  have hsucc : HasValue (Float.ofNat (n + 1)) (n + 1 : ℕ) := hasValue_ofNat hn
  rw [Nat.cast_succ] at hsucc
  rcases eq_or_ne n 0 with rfl | hne
  · rw [hopFitness_zero, hv.le_iff hsucc]
    simpa using hle
  · rw [hopFitness_of_ne hne]
    exact (add_rounded (hasValue_ofNat hn.le) hv).le hsucc (by linarith)

/-- One is less than the other, or the double between them is both. -/
theorem lt_or_tie (hx : x ≤ Float.ofNat (m + 1)) (hy : Float.ofNat n ≤ y) (h : m < n) (hbits : m + 1 < 2 ^ 53) :
    x < y ∨ n = m + 1 ∧ (x == Float.ofNat n) = true ∧ (y == Float.ofNat n) = true := by
  have hsucc : Float.ofNat (m + 1) ≤ Float.ofNat n := ofNat_le_ofNat hbits.le h
  rcases hbeq : (x == y) with _ | _
  · left
    exact lt_of_le_of_beq_eq_false (le_trans hx (le_trans hsucc hy)) hbeq
  · right
    have hyx : y ≤ x := (beq_iff_le.1 hbeq).2
    have hnx : Float.ofNat n ≤ x := le_trans hy hyx
    obtain rfl : n = m + 1 := Nat.le_antisymm (le_of_ofNat_le hbits (le_trans hnx hx)) h
    exact ⟨rfl, beq_iff_le.2 ⟨hx, hnx⟩, beq_iff_le.2 ⟨le_trans hyx hx, hy⟩⟩

theorem hopFitness_le_maxFitness (hd : HasValue d p) (hn : n ≤ 2 ^ 64) : hopFitness n d ≤ maxFitness := by
  obtain ⟨v, hv, hle⟩ := exists_normalize_le_one hd
  have hrange := two_pow_64_add_one_le
  rcases eq_or_ne n 0 with rfl | hne
  · rw [hopFitness_zero, hv.le_iff hasValue_maxFitness]
    linarith
  · obtain ⟨q, hq, hq64, -⟩ := exists_hasValue_ofNat hn
    rw [hopFitness_of_ne hne]
    exact (add_rounded hq hv).le hasValue_maxFitness (by linarith)

/-! ## Small distances -/

/-- Rounding stays below a whole number where the doubles are dense enough. -/
theorem Nearest.le_sub (h : Nearest X q) {N j : ℕ} (hN : 0 < N) (hbits : N * 2 ^ j ≤ 2 ^ 53)
    (hX : X ≤ N - 2 ^ (-(j : ℤ))) : q ≤ N - 2 ^ (-(j : ℤ)) := by
  have hpow : 2 ^ j ≤ 2 ^ 53 := (Nat.le_mul_of_pos_left _ hN).trans hbits
  have hj : j ≤ 53 := (Nat.pow_le_pow_iff_right (by norm_num)).1 hpow
  have hone : 1 ≤ N * 2 ^ j := Nat.mul_pos hN (by positivity)
  have hvalue : ((N * 2 ^ j - 1 : ℕ) : ℚ) * 2 ^ (-(j : ℤ)) = N - 2 ^ (-(j : ℤ)) := by
    rw [Nat.cast_sub hone, Nat.cast_one, sub_mul, one_mul, cast_mul_two_pow, neg_add_cancel, zpow_zero, mul_one]
  rw [← hvalue] at hX ⊢
  exact (h.rounds _ _ (by omega) (by omega)).2 hX

/-- Below `2 ^ 52` the rounding of one more takes off less than a half. -/
theorem add_half_le (hround : Nearest (p + 1) q) (hp : 0 ≤ p) (hsmall : p + 1 ≤ 2 ^ 52) : p + 1 / 2 ≤ q := by
  have hfloor : (⌊2 * (p + 1)⌋₊ : ℚ) ≤ 2 * (p + 1) := Nat.floor_le (by linarith)
  have hbits : ⌊2 * (p + 1)⌋₊ ≤ 2 ^ 53 := by
    have h : (⌊2 * (p + 1)⌋₊ : ℚ) ≤ 2 ^ 53 := hfloor.trans (by linarith)
    exact_mod_cast h
  have hle := (hround.rounds ⌊2 * (p + 1)⌋₊ (-1) hbits (by norm_num)).1
  rw [zpow_neg_one] at hle
  have hlt := Nat.lt_floor_add_one (2 * (p + 1))
  linarith [hle (by linarith)]

/-- A distance below a power of two is normalized to a number that stays away from one. -/
theorem exists_normalize_le_sub (hd : HasValue d p) (hk : p + 1 ≤ 2 ^ k) (hk52 : k ≤ 52) :
    ∃ v, HasValue (normalize d) v ∧ v ≤ 1 - 2 ^ (-((k + 1 : ℕ) : ℤ)) := by
  have hsmall : p + 1 ≤ 2 ^ 52 := hk.trans (pow_le_pow_right₀ (by norm_num) hk52)
  have hlt : p < greatest := by
    have := two_pow_le_greatest (show 52 ≤ 971 by norm_num)
    linarith
  obtain ⟨q, hq, hround⟩ := exists_add_one hd hlt
  have hge : p + 1 / 2 ≤ q := add_half_le hround hd.nonneg hsmall
  have hle : q ≤ 2 ^ k := by
    have h := (hround.rounds 1 k (by norm_num) (by omega)).2
    rw [Nat.cast_one, one_mul, zpow_natCast] at h
    exact h hk
  have hpos : 0 < q := by linarith [hd.nonneg]
  have hquotient : p / q ≤ (1 : ℕ) - 2 ^ (-((k + 1 : ℕ) : ℤ)) := by
    -- the gap is at most a half of the sum
    have hgap : q * 2 ^ (-((k + 1 : ℕ) : ℤ)) ≤ 1 / 2 := by
      calc q * 2 ^ (-((k + 1 : ℕ) : ℤ)) ≤ 2 ^ k * 2 ^ (-((k + 1 : ℕ) : ℤ)) :=
            mul_le_mul_of_nonneg_right hle (by positivity)
        _ = 1 / 2 := by
          rw [zpow_neg, zpow_natCast, pow_succ]
          field_simp
    rw [div_le_iff₀ hpos, Nat.cast_one]
    linarith
  have hbits : 1 * 2 ^ (k + 1) ≤ 2 ^ 53 := by
    rw [one_mul]
    exact Nat.pow_le_pow_right (by norm_num) (by omega)
  have hone : p / q ≤ 1 := (div_le_one hpos).2 (by linarith)
  obtain ⟨v, hv, hround'⟩ := (div_rounded hd hq hpos).exists_value (hone.trans one_le_greatest)
  have hv' := hround'.le_sub one_pos hbits hquotient
  rw [Nat.cast_one] at hv'
  exact ⟨v, hv, hv'⟩

theorem Rounded.lt_of_le_sub (h : Rounded x X) {N j : ℕ} (hy : HasValue y N) (hN : 0 < N) (hbits : N * 2 ^ j ≤ 2 ^ 53)
    (hX : X ≤ N - 2 ^ (-(j : ℤ))) : x < y := by
  have hgap : (0 : ℚ) < 2 ^ (-(j : ℤ)) := by positivity
  rcases h with ⟨q, hx, hround⟩ | ⟨-, hgt⟩
  · rw [hx.lt_iff hy]
    linarith [hround.le_sub hN hbits hX]
  · linarith [hy.le_greatest]

theorem room_of_le (hd : HasValue d p) (hk : d ≤ Float.ofNat k) (h : (n + 1) * (k + 1) ≤ 2 ^ 51) :
    ((n : ℚ) + 1) * (p + 1) ≤ 2 ^ 51 := by
  have hbits : k + 1 ≤ 2 ^ 51 := (Nat.le_mul_of_pos_left _ n.succ_pos).trans h
  have hpk : p ≤ k := (hd.le_iff (hasValue_ofNat (by omega))).1 hk
  calc ((n : ℚ) + 1) * (p + 1) ≤ (n + 1) * (k + 1) := by gcongr
    _ ≤ 2 ^ 51 := by exact_mod_cast h

/-- The sum of hops and a normalized distance does not round up to one more hop while there are bits for both. -/
theorem hopFitness_lt_ofNat_succ (hd : HasValue d p) (h : (n + 1) * (p + 1) ≤ 2 ^ 51) :
    hopFitness n d < Float.ofNat (n + 1) := by
  obtain ⟨k, hkle, hklt⟩ :=
    exists_nat_pow_near (show 1 ≤ p + 1 by linarith [hd.nonneg]) (show (1 : ℚ) < 2 by norm_num)
  have hbits : (n + 1) * 2 ^ (k + 1 + 1) ≤ 2 ^ 53 := by
    have hprod : ((n : ℚ) + 1) * 2 ^ k ≤ 2 ^ 51 := (mul_le_mul_of_nonneg_left hkle (by positivity)).trans h
    have hshift : ((n + 1) * 2 ^ (k + 1 + 1) : ℚ) ≤ 2 ^ 53 := by
      rw [pow_succ, pow_succ]
      linarith
    exact_mod_cast hshift
  have hk : k + 1 + 1 ≤ 53 :=
    (Nat.pow_le_pow_iff_right (by norm_num)).1 ((Nat.le_mul_of_pos_left _ n.succ_pos).trans hbits)
  have hn : n + 1 ≤ 2 ^ 53 := (Nat.le_mul_of_pos_right _ (by positivity)).trans hbits
  obtain ⟨v, hv, hle⟩ := exists_normalize_le_sub hd hklt.le (by omega)
  have hsum : n + v ≤ (n + 1 : ℕ) - 2 ^ (-((k + 1 + 1 : ℕ) : ℤ)) := by
    rw [Nat.cast_succ]
    linarith
  rcases eq_or_ne n 0 with rfl | hne
  · rw [Nat.cast_zero, zero_add] at hsum
    rw [hopFitness_zero]
    exact hv.rounded.lt_of_le_sub (hasValue_ofNat hn) one_pos hbits hsum
  · rw [hopFitness_of_ne hne]
    exact (add_rounded (hasValue_ofNat (by omega)) hv).lt_of_le_sub (hasValue_ofNat hn) n.succ_pos hbits hsum

end CoverSearch.Double
