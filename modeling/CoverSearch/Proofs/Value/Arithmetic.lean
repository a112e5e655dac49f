import CoverSearch.Proofs.Value.Rounding

/-!
# Arithmetic on the values of doubles

`HasValue x q` says that `x` is no negative number and that its value is `q`. A result that cannot be named exactly is
`Rounded`: the double nearest to the exact value, or positive infinity above the greatest finite double.

* `Double.HasValue.lt_iff`, `Double.HasValue.le_iff` : doubles compare as their values;
* `Double.HasValue.nearest_self` : a value is rounded to itself;
* `Double.add_rounded`, `Double.div_rounded` : sums and quotients are rounded from the exact ones;
* `Double.ofNat_rounded` : so is the double of a natural number, also of one with too many bits.
-/

namespace CoverSearch.Double
open Float.Model (UnpackedFloat Format totalExponent)
open Float.Model.UnpackedFloat (Sign Accuracy ExtendedMantissa roundWithAccuracy decreaseExponent)

variable {x y z : Float} {p q X : ℚ} {m n : ℕ} {e f : ℤ} {s : Sign}

theorem log2_mul_two_pow (hm : m ≠ 0) (n : ℕ) : (m * 2 ^ n).log2 = m.log2 + n := by
  rw [Nat.log2_eq_iff (by positivity)]
  constructor
  · rw [pow_add]
    exact Nat.mul_le_mul_right _ (Nat.log2_self_le hm)
  · rw [show m.log2 + n + 1 = m.log2 + 1 + n by omega, pow_add]
    exact Nat.mul_lt_mul_of_pos_right Nat.lt_log2_self (by positivity)

/-- The exponent is lowered where the significand is too short. -/
theorem exists_round (s : Sign) (hm : m ≠ 0) (e : ℤ) :
    ∃ M E, UnpackedFloat.round Format.binary64 s m e = ofSignificand s M E ∧ Canonical M E ∧
      Nearest (m * 2 ^ e) (M * 2 ^ E) := by
  set k := (e - max (m.log2 + 1 + e - 53) (-1074)).toNat with hk
  have hround : UnpackedFloat.round Format.binary64 s m e =
      roundWithAccuracy Format.binary64 s (m * 2 ^ k) (e - k) .exact := by
    rw [← Nat.shiftLeft_eq]
    rfl
  have hvalue := cast_mul_two_pow m k (e - k)
  rw [sub_add_cancel] at hvalue
  rw [hround, ← hvalue]
  apply exists_roundWithAccuracy s (brackets_exact _)
  rw [log2_mul_two_pow hm]
  push_cast
  omega

theorem scaled_lt (hm : m < 2 ^ 53) (hn : 2 ^ 52 ≤ n) (h : e < f) : (m : ℚ) * 2 ^ e < n * 2 ^ f := by
  have hm' : (m : ℚ) < 2 ^ 53 := by exact_mod_cast hm
  have hn' : (2 : ℚ) ^ 52 ≤ n := by exact_mod_cast hn
  calc (m : ℚ) * 2 ^ e < 2 ^ 53 * 2 ^ e := mul_lt_mul_of_pos_right hm' (by positivity)
    _ = 2 ^ 52 * 2 ^ (e + 1) := by
      rw [zpow_add_one₀ (by norm_num)]
      ring
    _ ≤ n * 2 ^ f := mul_le_mul hn' (zpow_le_zpow_right₀ (by norm_num) (by omega)) (by positivity) (by positivity)

/-! ## Values -/

/-- A double that is no negative number, and its value. -/
def HasValue (x : Float) (q : ℚ) : Prop :=
  ∃ s m e, x.toModel.unpack = ofSignificand s m e ∧ (m ≠ 0 → s = .positive) ∧ Canonical m e ∧ e ≤ 971 ∧ q = m * 2 ^ e

/-- The greatest finite double. -/
def greatest : ℚ := (2 ^ 53 - 1 : ℕ) * 2 ^ (971 : ℤ)

theorem scaled_le_greatest (hm : m < 2 ^ 53) (he : e ≤ 971) : (m : ℚ) * 2 ^ e ≤ greatest := by
  have hm' : m ≤ 2 ^ 53 - 1 := by omega
  exact mul_le_mul (by exact_mod_cast hm') (zpow_le_zpow_right₀ (by norm_num) he) (by positivity) (by positivity)

/-- A double is the nearest one to a number, and infinite at most above the greatest finite one. -/
def Rounded (x : Float) (X : ℚ) : Prop :=
  (∃ q, HasValue x q ∧ Nearest X q) ∨ x.toModel.unpack = .infinity .positive ∧ greatest < X

theorem Rounded.exists_value (h : Rounded x X) (hX : X ≤ greatest) : ∃ q, HasValue x q ∧ Nearest X q :=
  h.resolve_right fun h => absurd hX (not_le.2 h.2)

theorem unpack_pack_ofSignificand (h : Canonical m e) (he : e ≤ 971) (s : Sign) :
    (Float.Model.pack (ofSignificand s m e)).unpack = ofSignificand s m e := by
  by_cases hm : m = 0
  · rw [hm, ofSignificand_zero]
    cases s <;> rfl
  · rw [ofSignificand_of_ne hm]
    exact unpack_pack h _ he s

theorem unpack_pack_overflow (he : 971 < e) (hm : 0 < m) (s : Sign) :
    (Float.Model.pack (.finite s m e hm)).unpack = .infinity s := by
  show UnpackedFloat.unpack Format.binary64 (UnpackedFloat.pack Format.binary64 (.finite s m e hm)) = _
  rw [pack_finite, if_pos (by omega)]
  cases s <;> rfl

theorem rounded_of_pack (h : Canonical m e) (hs : m ≠ 0 → s = .positive) (hX : Nearest X (m * 2 ^ e)) :
    Rounded (.ofModel (.pack (ofSignificand s m e))) X := by
  by_cases he : e ≤ 971
  · exact Or.inl ⟨_, ⟨s, m, e, unpack_pack_ofSignificand h he s, hs, h, he, rfl⟩, hX⟩
  · have hfull : 2 ^ 52 ≤ m := h.full.resolve_right (by omega)
    have hm : m ≠ 0 := by omega
    refine Or.inr ⟨?_, ?_⟩
    · rw [ofSignificand_of_ne hm, hs hm]
      exact unpack_pack_overflow (by omega) _ _
    · by_contra hle
      rw [not_lt] at hle
      have hround := (hX.rounds (2 ^ 53 - 1) 971 (by omega) (by omega)).2 hle
      exact absurd (scaled_lt (by omega) hfull (by omega)) (not_lt.2 hround)

/-! ## Order -/

theorem Place.mk_lt_mk {a b c a' b' c' : ℤ} :
    Place.mk a b c < Place.mk a' b' c' ↔ a < a' ∨ a = a' ∧ (b < b' ∨ b = b' ∧ c < c') := by
  simp [Place.mk, Prod.Lex.toLex_lt_toLex]

theorem unpackedPlace?_ofSignificand (hs : m ≠ 0 → s = .positive) (e : ℤ) :
    unpackedPlace? (ofSignificand s m e) = some (if m = 0 then .mk 0 0 0 else .mk 1 e m) := by
  by_cases hm : m = 0
  · rw [if_pos hm, hm]
    rfl
  · rw [if_neg hm, ofSignificand_of_ne hm, hs hm]
    rfl

theorem scaled_lt_iff (hm : Canonical m e) (hn : Canonical n f) :
    (m : ℚ) * 2 ^ e < n * 2 ^ f ↔ e < f ∨ e = f ∧ m < n := by
  have hme := hm.exponent_ge
  have hnf := hn.exponent_ge
  rcases lt_trichotomy e f with h | rfl | h
  · have hfull := hn.full.resolve_right (by omega)
    exact iff_of_true (scaled_lt hm.significand_lt hfull h) (Or.inl h)
  · rw [mul_lt_mul_iff_left₀ (by positivity), Nat.cast_lt]
    simp
  · have hfull := hm.full.resolve_right (by omega)
    exact iff_of_false (not_lt.2 (scaled_lt hn.significand_lt hfull h).le) (by omega)

namespace HasValue

theorem nonneg (h : HasValue x p) : 0 ≤ p := by
  obtain ⟨s, m, e, -, -, -, -, rfl⟩ := h
  positivity

theorem le_greatest (h : HasValue x p) : p ≤ greatest := by
  obtain ⟨s, m, e, -, -, hm, he, rfl⟩ := h
  exact scaled_le_greatest hm.significand_lt he

theorem lt_iff (hx : HasValue x p) (hy : HasValue y q) : x < y ↔ p < q := by
  obtain ⟨s, m, e, hm, hs, hme, -, rfl⟩ := hx
  obtain ⟨t, n, f, hn, ht, hnf, -, rfl⟩ := hy
  have hplaces : x < y ↔
      (if m = 0 then Place.mk 0 0 0 else .mk 1 e m) < (if n = 0 then Place.mk 0 0 0 else .mk 1 f n) := by
    rw [lt_iff_place, place?, place?, hm, hn, unpackedPlace?_ofSignificand hs, unpackedPlace?_ofSignificand ht]
    simp
  rw [hplaces]
  by_cases hm0 : m = 0 <;> by_cases hn0 : n = 0
  · simp [hm0, hn0]
  · have hpos : (0 : ℚ) < n * 2 ^ f := by positivity
    simp [hm0, hn0, hpos, Place.mk_lt_mk]
  · have hpos : (0 : ℚ) < m * 2 ^ e := by positivity
    simp [hm0, hn0, hpos.le, Place.mk_lt_mk]
  · rw [if_neg hm0, if_neg hn0, Place.mk_lt_mk, scaled_lt_iff hme hnf]
    simp

theorem isNaN_eq_false (h : HasValue x p) : x.isNaN = false := by
  obtain ⟨s, m, e, hm, hs, -⟩ := h
  rw [← Bool.not_eq_true, ← place?_eq_none, place?, hm, unpackedPlace?_ofSignificand hs]
  exact Option.some_ne_none _

theorem isInf_eq_false (h : HasValue x p) : x.isInf = false := by
  obtain ⟨s, m, e, hx, -⟩ := h
  show x.toModel.unpack.isInf = false
  rw [hx]
  by_cases hm : m = 0
  · rw [hm]
    rfl
  · rw [ofSignificand_of_ne hm]
    rfl

theorem le_iff (hx : HasValue x p) (hy : HasValue y q) : x ≤ y ↔ p ≤ q := by
  rw [le_iff_not_lt hx.isNaN_eq_false hy.isNaN_eq_false, hy.lt_iff hx, not_lt]

theorem unique (hx : HasValue x p) (hx' : HasValue x q) : p = q := by
  have hle := le_refl hx.isNaN_eq_false
  exact ((hx.le_iff hx').1 hle).antisymm ((hx'.le_iff hx).1 hle)

end HasValue

/-! ## Operations -/

theorem Canonical.nearest_self (h : Canonical m e) : Nearest (m * 2 ^ e) (m * 2 ^ e) := by
  have hpos : (0 : ℚ) < 2 ^ e := by positivity
  refine ⟨e, ⟨by positivity, h.exponent_ge, ?_, h.full.imp_left fun hfull => ?_⟩, ?_⟩
  · gcongr
    exact_mod_cast h.significand_lt
  · gcongr
    exact_mod_cast hfull
  · rw [mul_div_cancel_right₀ _ hpos.ne', roundEven_natCast]

theorem HasValue.nearest_self (h : HasValue x p) : Nearest p p := by
  obtain ⟨s, m, e, -, -, hm, -, rfl⟩ := h
  exact hm.nearest_self

theorem HasValue.rounded (h : HasValue x p) : Rounded x p := Or.inl ⟨p, h, h.nearest_self⟩

theorem normalize_natCast (hm : m ≠ 0) (e : ℤ) :
    UnpackedFloat.normalize Format.binary64 m e .positive = UnpackedFloat.round Format.binary64 .positive m e := by
  have hcompare : compare (m : ℤ) 0 = .gt := by
    rw [Int.compare_eq_gt]
    omega
  unfold UnpackedFloat.normalize
  rw [hcompare]
  rfl

theorem add_ofSignificand (hm : m ≠ 0) (hn : n ≠ 0) {g : ℤ} (hg : g = min e f) :
    UnpackedFloat.add Format.binary64 (ofSignificand .positive m e) (ofSignificand .positive n f) =
      UnpackedFloat.round Format.binary64 .positive (m * 2 ^ (e - g).toNat + n * 2 ^ (f - g).toNat) g := by
  have hsum : m * 2 ^ (e - g).toNat + n * 2 ^ (f - g).toNat ≠ 0 := by positivity
  rw [ofSignificand_of_ne hm, ofSignificand_of_ne hn, ← normalize_natCast hsum, ← Nat.shiftLeft_eq, ← Nat.shiftLeft_eq,
    Nat.cast_add, hg]
  rfl

theorem add_rounded (hx : HasValue x p) (hy : HasValue y q) : Rounded (x + y) (p + q) := by
  obtain ⟨s, m, e, hxu, hs, hme, he, rfl⟩ := hx
  obtain ⟨t, n, f, hyu, ht, hnf, hf, rfl⟩ := hy
  show Rounded (.ofModel (.pack (UnpackedFloat.add Format.binary64 x.toModel.unpack y.toModel.unpack))) _
  rw [hxu, hyu]
  by_cases hm : m = 0 <;> by_cases hn : n = 0
  · subst hm hn
    obtain ⟨u, hu⟩ : ∃ u, UnpackedFloat.add Format.binary64 (ofSignificand s 0 e) (ofSignificand t 0 f) =
        ofSignificand u 0 e := by
      cases s <;> cases t <;> exact ⟨_, rfl⟩
    rw [hu]
    apply rounded_of_pack hme (fun h => absurd rfl h)
    simpa using hme.nearest_self
  · subst hm
    rw [Nat.cast_zero, zero_mul, zero_add]
    have hadd : UnpackedFloat.add Format.binary64 (ofSignificand s 0 e) (ofSignificand t n f) =
        ofSignificand t n f := by
      rw [ofSignificand_of_ne hn]
      rfl
    rw [hadd]
    exact rounded_of_pack hnf ht hnf.nearest_self
  · subst hn
    rw [Nat.cast_zero, zero_mul, add_zero]
    have hadd : UnpackedFloat.add Format.binary64 (ofSignificand s m e) (ofSignificand t 0 f) =
        ofSignificand s m e := by
      rw [ofSignificand_of_ne hm]
      rfl
    rw [hadd]
    exact rounded_of_pack hme hs hme.nearest_self
  · have hsum : m * 2 ^ (e - min e f).toNat + n * 2 ^ (f - min e f).toNat ≠ 0 := by positivity
    obtain ⟨M, E, hround, hcanonical, hrounds⟩ := exists_round .positive hsum (min e f)
    have hvalue : ((m * 2 ^ (e - min e f).toNat + n * 2 ^ (f - min e f).toNat : ℕ) : ℚ) * 2 ^ min e f =
        m * 2 ^ e + n * 2 ^ f := by
      rw [Nat.cast_add, add_mul, cast_mul_two_pow, cast_mul_two_pow, Int.toNat_of_nonneg (by omega),
        Int.toNat_of_nonneg (by omega), add_sub_cancel, add_sub_cancel]
    rw [hs hm, ht hn, add_ofSignificand hm hn rfl, hround]
    rw [hvalue] at hrounds
    exact rounded_of_pack hcanonical (fun _ => rfl) hrounds

/-- The bits of a fraction are read off the comparison of its half with the divisor. -/
theorem bits_accuracyOfFraction (hn : n ≠ 0) (m r : ℕ) :
    ((ExtendedMantissa.ofMantissaAndAccuracy m (UnpackedFloat.accuracyOfFraction r n)).roundBit = true ↔ n ≤ 2 * r) ∧
      ((ExtendedMantissa.ofMantissaAndAccuracy m (UnpackedFloat.accuracyOfFraction r n)).stickyBit = false ↔
        r = 0 ∨ 2 * r = n) := by
  unfold UnpackedFloat.accuracyOfFraction
  split <;> rename_i hr
  · simp [ExtendedMantissa.ofMantissaAndAccuracy, hr, hn]
  · rcases Nat.lt_trichotomy (2 * r) n with h | h | h
    · simp only [Nat.compare_eq_lt.2 h, ExtendedMantissa.ofMantissaAndAccuracy]
      simp [hr, h.ne, not_le.2 h]
    · simp only [Nat.compare_eq_eq.2 h, ExtendedMantissa.ofMantissaAndAccuracy]
      simp [h]
    · simp only [Nat.compare_eq_gt.2 h, ExtendedMantissa.ofMantissaAndAccuracy]
      simp [hr, h.ne', h.le]

theorem brackets_div (a : ℕ) (hn : n ≠ 0) :
    Brackets (.ofMantissaAndAccuracy (a / n) (UnpackedFloat.accuracyOfFraction (a % n) n)) (a / n) := by
  have hpos : (0 : ℚ) < n := by positivity
  have hlt : ((a % n : ℕ) : ℚ) / n < 1 := by
    rw [div_lt_one hpos]
    exact_mod_cast Nat.mod_lt a (Nat.pos_of_ne_zero hn)
  have hsplit : (a : ℚ) / n = (a / n : ℕ) + ((a % n : ℕ) : ℚ) / n := by
    rw [div_eq_iff hpos.ne', add_mul, div_mul_cancel₀ _ hpos.ne']
    exact_mod_cast (Nat.div_add_mod' a n).symm
  have hnonneg : 0 ≤ ((a % n : ℕ) : ℚ) / n := by positivity
  obtain ⟨hround, hsticky⟩ := bits_accuracyOfFraction hn (a / n) (a % n)
  constructor <;> rw [mantissa_ofMantissaAndAccuracy, hsplit]
  · linarith
  · linarith
  · rw [hround, add_le_add_iff_left, le_div_iff₀ hpos, ← @Nat.cast_le ℚ]
    push_cast
    constructor <;> intro h <;> linarith
  · rw [hsticky, add_eq_left, div_eq_zero_iff, or_iff_left hpos.ne', Nat.cast_eq_zero, add_right_inj,
      div_eq_iff hpos.ne', ← @Nat.cast_inj ℚ _ _ (2 * (a % n))]
    push_cast
    exact or_congr_right ⟨fun h => by linarith, fun h => by linarith⟩

/-- A quotient has enough digits to be rounded. -/
theorem quotient_ready (hm : m ≠ 0) (hn : n ≠ 0) {g : ℤ} {k : ℕ} (hg : g + k = e - f)
    (hle : g ≤ max ((m.log2 + 1 + e) - (n.log2 + 1 + f) - 53) (-1074)) :
    g ≤ max (((m * 2 ^ k / n).log2 : ℤ) + 1 + g - 53) (-1074) := by
  by_cases hmin : g ≤ -1074
  · omega
  · obtain ⟨j, hj⟩ : ∃ j : ℕ, m.log2 + k = n.log2 + 1 + (52 + j) := ⟨m.log2 + k - n.log2 - 53, by omega⟩
    have hquotient : 2 ^ (52 + j) ≤ m * 2 ^ k / n := by
      rw [Nat.le_div_iff_mul_le (Nat.pos_of_ne_zero hn)]
      calc 2 ^ (52 + j) * n ≤ 2 ^ (52 + j) * 2 ^ (n.log2 + 1) := Nat.mul_le_mul_left _ Nat.lt_log2_self.le
        _ = 2 ^ m.log2 * 2 ^ k := by
          rw [← pow_add, ← pow_add]
          congr 1
          omega
        _ ≤ m * 2 ^ k := Nat.mul_le_mul_right _ (Nat.log2_self_le hm)
    have hne : m * 2 ^ k / n ≠ 0 := (LT.lt.trans_le (by positivity) hquotient).ne'
    have hlog : 52 + j ≤ (m * 2 ^ k / n).log2 := (Nat.le_log2 hne).2 hquotient
    omega

theorem div_rounded (hx : HasValue x p) (hy : HasValue y q) (hq : 0 < q) : Rounded (x / y) (p / q) := by
  obtain ⟨s, m, e, hxu, hs, hme, he, rfl⟩ := hx
  obtain ⟨t, n, f, hyu, ht, hnf, hf, rfl⟩ := hy
  have hn : n ≠ 0 := by
    rintro rfl
    simp at hq
  show Rounded (.ofModel (.pack (UnpackedFloat.div Format.binary64 x.toModel.unpack y.toModel.unpack))) _
  rw [hxu, hyu, ofSignificand_of_ne hn]
  by_cases hm : m = 0
  · subst hm
    rw [Nat.cast_zero, zero_mul, zero_div]
    have hdiv : UnpackedFloat.div Format.binary64 (ofSignificand s 0 e) (.finite t n f (Nat.pos_of_ne_zero hn)) =
        ofSignificand (s / t) 0 e := rfl
    rw [hdiv]
    apply rounded_of_pack hme (fun h => absurd rfl h)
    simpa using hme.nearest_self
  · rw [ofSignificand_of_ne hm]
    obtain rfl := hs hm
    obtain rfl := ht hn
    set g : ℤ := min (e - f) (max ((m.log2 + 1 + e) - (n.log2 + 1 + f) - 53) (-1074)) with hg
    obtain ⟨k, hk⟩ := Int.le.dest (show g ≤ e - f by omega)
    have hdiv : UnpackedFloat.div Format.binary64 (.finite .positive m e (Nat.pos_of_ne_zero hm))
        (.finite .positive n f (Nat.pos_of_ne_zero hn)) = roundWithAccuracy Format.binary64 .positive (m * 2 ^ k / n) g
          (UnpackedFloat.accuracyOfFraction (m * 2 ^ k % n) n) := by
      have hshift : (e - f - g).toNat = k := by omega
      rw [← Nat.shiftLeft_eq, ← hshift, hg]
      rfl
    obtain ⟨M, E, hround, hcanonical, hrounds⟩ := exists_roundWithAccuracy .positive (brackets_div (m * 2 ^ k) hn)
      (quotient_ready hm hn hk (by omega))
    rw [hdiv, hround]
    have hvalue : ((m * 2 ^ k : ℕ) : ℚ) / n * 2 ^ g = m * 2 ^ e / (n * 2 ^ f) := by
      rw [div_mul_eq_mul_div, cast_mul_two_pow, hk, zpow_sub₀ (by norm_num), mul_div_assoc', div_div,
        mul_comm (2 ^ f : ℚ)]
    rw [hvalue] at hrounds
    exact rounded_of_pack hcanonical (fun _ => rfl) hrounds

/-! ## Natural numbers -/

theorem hasValue_of_rounded (h : Rounded x (n * 2 ^ e)) (hn : n < 2 ^ 53) (he : -1074 ≤ e) (he' : e ≤ 971) :
    HasValue x (n * 2 ^ e) := by
  obtain ⟨q, hq, hround⟩ := h.exists_value (scaled_le_greatest hn he')
  obtain ⟨hle, hge⟩ := hround.rounds n e hn.le he
  rwa [← (hle le_rfl).antisymm (hge le_rfl)] at hq

theorem hasValue_natCast (h : Rounded x n) (hn : n < 2 ^ 53) : HasValue x n := by
  rw [← mul_one (n : ℚ), ← zpow_zero (2 : ℚ)] at h ⊢
  exact hasValue_of_rounded h hn (by norm_num) (by norm_num)

theorem exists_roundWithAccuracy_exact (s : Sign) (hm : 2 ^ 52 ≤ m) (e : ℤ) :
    ∃ M E, roundWithAccuracy Format.binary64 s m e .exact = ofSignificand s M E ∧ Canonical M E ∧
      Nearest (m * 2 ^ e) (M * 2 ^ E) := by
  have hlog : 52 ≤ m.log2 := (Nat.le_log2 (by omega)).2 hm
  exact exists_roundWithAccuracy s (brackets_exact m) (by omega)

theorem toFloat_rounded (h : n < 2 ^ 53) (hn : n ≠ 0) : Rounded n.toUInt64.toFloat n := by
  have hword : n.toUInt64.toNat = n := by
    rw [Nat.toUInt64, UInt64.toNat_ofNat']
    omega
  obtain ⟨M, E, hround, hcanonical, hrounds⟩ := exists_round .positive hn 0
  rw [zpow_zero, mul_one] at hrounds
  show Rounded (.ofModel (.pack (UnpackedFloat.normalize Format.binary64 (n.toUInt64.toNat : ℤ) 0 .positive))) _
  rw [hword, normalize_natCast hn, hround]
  exact rounded_of_pack hcanonical (fun _ => rfl) hrounds

theorem hasValue_zero : HasValue 0 0 :=
  ⟨.positive, 0, -1074, rfl, fun h => absurd rfl h, ⟨by norm_num, by norm_num, Or.inr rfl⟩, by norm_num, by simp⟩

theorem mul_one_rounded (hx : HasValue x p) (hp : 0 < p) : Rounded (x * Float.ofBits 0x3FF0000000000000) p := by
  obtain ⟨s, m, e, hxu, hs, hme, he, rfl⟩ := hx
  have hm : m ≠ 0 := by
    rintro rfl
    simp at hp
  obtain ⟨M, E, hround, hcanonical, hrounds⟩ :=
    exists_roundWithAccuracy_exact .positive (show 2 ^ 52 ≤ m * 2 ^ 52 by omega) (e - 52)
  have hvalue := cast_mul_two_pow m 52 (e - 52)
  rw [Nat.cast_ofNat, sub_add_cancel] at hvalue
  rw [hvalue] at hrounds
  have hmul : UnpackedFloat.mul Format.binary64 (ofSignificand s m e) (Float.ofBits 0x3FF0000000000000).toModel.unpack =
      roundWithAccuracy Format.binary64 .positive (m * 2 ^ 52) (e - 52) .exact := by
    rw [ofSignificand_of_ne hm, hs hm]
    rfl
  show Rounded (.ofModel (.pack (UnpackedFloat.mul Format.binary64 x.toModel.unpack _))) _
  rw [hxu, hmul, hround]
  exact rounded_of_pack hcanonical (fun _ => rfl) hrounds

theorem ofNat_rounded (n : ℕ) : Rounded (Float.ofNat n) n := by
  by_cases hn : n = 0
  · subst hn
    rw [Nat.cast_zero]
    exact hasValue_zero.rounded
  · by_cases h : n < 2 ^ 53
    · have hfast : Float.ofNat n = n.toUInt64.toFloat * Float.ofBits 0x3FF0000000000000 := by
        show Float.ofScientific n false 0 = _
        unfold Float.ofScientific
        rw [dif_pos ⟨h, by decide⟩]
        rfl
      rw [hfast]
      exact mul_one_rounded (hasValue_natCast (toFloat_rounded h hn) h) (by positivity)
    · have hslow : Float.ofNat n =
          .ofModel (.pack (roundWithAccuracy Format.binary64 .positive (n * 2 ^ 53) (-53) .exact)) := by
        show Float.ofScientific n false 0 = _
        unfold Float.ofScientific
        rw [dif_neg fun hh => h hh.1]
        show Float.ofModel (.pack (UnpackedFloat.ofScientific Format.binary64 n 0)) = _
        unfold UnpackedFloat.ofScientific
        rw [dif_neg hn, if_neg (by decide), if_neg (by simp), if_pos (by decide), ← Nat.shiftLeft_eq,
          ← Nat.mul_one (n <<< 53)]
        rfl
      obtain ⟨M, E, hround, hcanonical, hrounds⟩ :=
        exists_roundWithAccuracy_exact .positive (show 2 ^ 52 ≤ n * 2 ^ 53 by omega) (-53)
      have hvalue := cast_mul_two_pow n 53 (-53)
      rw [Nat.cast_ofNat, neg_add_cancel, zpow_zero, mul_one] at hvalue
      rw [hvalue] at hrounds
      rw [hslow, hround]
      exact rounded_of_pack hcanonical (fun _ => rfl) hrounds

end CoverSearch.Double
