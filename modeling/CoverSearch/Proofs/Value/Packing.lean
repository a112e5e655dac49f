import CoverSearch.Proofs.Value.Order
import Mathlib.Data.Nat.Log
import Mathlib.Tactic.Ring
import Mathlib.Tactic.Linarith

/-!
# The bits of doubles

A double is a sign, an exponent field and a significand field. The greatest exponent field is that of infinities and
NaNs, and zero that of the numbers without an implicit bit. The fields give the unpacked double and can be got back from
it.

* `Canonical` : the significands and exponents of finite doubles;
* `ofFields` : the double of three fields; `exists_fields` : every double is one;
* `unpack_injective` : different doubles are unpacked differently; `eq_of_beq` : equal ones are the same, except zeros;
* `unpack_finite` : what is unpacked is canonical; `unpack_pack` : and every canonical number that fits is unpacked from
  a double.
-/

namespace CoverSearch.Double
open Float.Model (UnpackedFloat Format)
open Float.Model.UnpackedFloat (Sign packComponents packedInfinity unpackSign unpackExponent unpackMantissa pack unpack
  unpackExponent_packComponents unpackMantissa_packComponents)

/-! ## Fields -/

/-- A significand of 53 bits, or fewer at the least exponent. -/
structure Canonical (m : ℕ) (e : ℤ) : Prop where
  significand_lt : m < 2 ^ 53
  exponent_ge : -1074 ≤ e
  full : 2 ^ 52 ≤ m ∨ e = -1074

theorem toBitVec_ofBitVec (b : BitVec 1) : (Sign.ofBitVec b).toBitVec = b := by
  rcases BitVec.eq_zero_or_eq_one b with rfl | rfl <;> rfl

theorem ofBitVec_toBitVec (s : Sign) : Sign.ofBitVec s.toBitVec = s := by
  cases s <;> rfl

theorem unpackSign_eq (b : BitVec 64) : @unpackSign Format.binary64 b = (b.extractLsb 63 63).cast rfl := rfl

theorem exists_components (b : BitVec 64) : ∃ s e m, b = packComponents Format.binary64 s e m := by
  refine ⟨Sign.ofBitVec (@unpackSign Format.binary64 b), @unpackExponent Format.binary64 b,
    @unpackMantissa Format.binary64 b, ?_⟩
  rw [packComponents, toBitVec_ofBitVec]
  apply BitVec.eq_of_getLsbD_eq
  intro i hi
  simp only [unpackSign_eq, unpackExponent, unpackMantissa, BitVec.getLsbD_append, BitVec.getLsbD_cast,
    BitVec.getLsbD_extractLsb]
  split
  · rw [decide_eq_true (by omega), Bool.true_and, Nat.zero_add]
  · split
    · rw [decide_eq_true (by omega), Bool.true_and, show 52 + (i - 52) = i by omega]
    · rw [decide_eq_true (by omega), Bool.true_and, show 63 + (i - 52 - 11) = i by omega]

theorem unpackSign_packComponents (s : Sign) (e : BitVec 11) (m : BitVec 52) :
    @unpackSign Format.binary64 (packComponents Format.binary64 s e m) = s.toBitVec := by
  apply BitVec.eq_of_getLsbD_eq
  intro i hi
  obtain rfl : i = 0 := by omega
  rw [unpackSign_eq, packComponents, BitVec.getLsbD_cast, BitVec.getLsbD_extractLsb, decide_eq_true (by omega),
    Bool.true_and]
  rw [BitVec.getLsbD_append, if_neg (by decide), BitVec.getLsbD_append, if_neg (by decide)]

theorem toNat_append_implicit (m : BitVec 52) : (1#1 ++ m).toNat = 2 ^ 52 + m.toNat := by
  rw [BitVec.toNat_append, ← Nat.shiftLeft_add_eq_or_of_lt m.isLt]
  rfl

/-- The double of a sign, an exponent field and a significand field. -/
def ofFields (s : Sign) (e m : ℕ) : UnpackedFloat :=
  if e = 2047 then if m = 0 then .infinity s else .notANumber
  else if e = 0 then if h : 0 < m then .finite s m (-1074) h else .zero s
  else .finite s (2 ^ 52 + m) (e - 1075) (Nat.add_pos_left (by decide) m)

theorem ofFields_subnormal (s : Sign) {m : ℕ} (hm : 0 < m) : ofFields s 0 m = .finite s m (-1074) hm := by
  rw [ofFields, if_neg (by decide), if_pos rfl, dif_pos hm]

theorem ofFields_normal (s : Sign) {e m : ℕ} (hmax : e ≠ 2047) (hzero : e ≠ 0) :
    ofFields s e m = .finite s (2 ^ 52 + m) (e - 1075) (Nat.add_pos_left (by decide) m) := by
  rw [ofFields, if_neg hmax, if_neg hzero]

theorem toNat_eq_zero {w : ℕ} {b : BitVec w} : b.toNat = 0 ↔ b = 0#w := by
  rw [← BitVec.toNat_inj, BitVec.toNat_zero]

theorem toNat_eq_max {e : BitVec 11} : e = -1#_ ↔ e.toNat = 2047 := by
  rw [← BitVec.toNat_inj]
  rfl

/-- Unpacking, by the exponent field. -/
theorem unpack_eq_ofFields (b : BitVec 64) : unpack Format.binary64 b =
    ofFields (.ofBitVec (@unpackSign Format.binary64 b)) (@unpackExponent Format.binary64 b).toNat
      (@unpackMantissa Format.binary64 b).toNat := by
  unfold unpack
  dsimp only
  by_cases hmax : @unpackExponent Format.binary64 b = -1#_
  · rw [if_pos hmax, ofFields, if_pos (toNat_eq_max.1 hmax)]
    exact if_congr toNat_eq_zero.symm rfl rfl
  · rw [if_neg hmax]
    by_cases hzero : @unpackExponent Format.binary64 b = 0#_
    · rw [if_pos hzero, hzero]
      by_cases hm : @unpackMantissa Format.binary64 b = 0#_
      · rw [dif_pos hm, hm]
        rfl
      · rw [dif_neg hm, BitVec.toNat_zero, ofFields_subnormal _ (Nat.pos_of_ne_zero (mt toNat_eq_zero.1 hm))]
        rfl
    · rw [if_neg hzero, ofFields_normal _ (mt toNat_eq_max.2 hmax) (mt toNat_eq_zero.1 hzero),
        UnpackedFloat.finite.injEq]
      exact ⟨rfl, toNat_append_implicit _, rfl⟩

theorem unpack_packComponents (s : Sign) (e : BitVec 11) (m : BitVec 52) :
    unpack Format.binary64 (packComponents Format.binary64 s e m) = ofFields s e.toNat m.toNat := by
  rw [unpack_eq_ofFields, unpackSign_packComponents, unpackExponent_packComponents, unpackMantissa_packComponents,
    ofBitVec_toBitVec]

theorem pack_finite (s : Sign) (m : ℕ) (e : ℤ) (hm : 0 < m) : pack Format.binary64 (.finite s m e hm) =
    if 2 ^ 11 ≤ (e + 1023 + 52).toNat + 1 then packedInfinity Format.binary64 s
    else if m.log2 + 1 = 53 then
      packComponents Format.binary64 s (BitVec.ofNat 11 (e + 1023 + 52).toNat) (BitVec.ofNat 52 m)
    else packComponents Format.binary64 s 0#11 (BitVec.ofNat 52 m) := rfl

theorem pack_subnormal (s : Sign) {m : BitVec 52} (hm : 0 < m.toNat) :
    pack Format.binary64 (.finite s m.toNat (-1074) hm) = packComponents Format.binary64 s 0#11 m := by
  have hlog : m.toNat.log2 < 52 := (Nat.log2_lt hm.ne').2 m.isLt
  have hbits : ¬ m.toNat.log2 + 1 = 53 := by omega
  rw [pack_finite, if_neg (by decide), if_neg hbits, BitVec.ofNat_toNat, BitVec.setWidth_eq]

theorem pack_normal (s : Sign) {e : BitVec 11} {m : BitVec 52} (hmax : e.toNat ≠ 2047) (hzero : e.toNat ≠ 0)
    (hpos : 0 < 2 ^ 52 + m.toNat) :
    pack Format.binary64 (.finite s (2 ^ 52 + m.toNat) (e.toNat - 1075) hpos) =
      packComponents Format.binary64 s e m := by
  have he := e.isLt
  have hm := m.isLt
  have hlog : (2 ^ 52 + m.toNat).log2 = 52 := (Nat.log2_eq_iff (by omega)).2 (by omega)
  have hbias : ((e.toNat : ℤ) - 1075 + 1023 + 52).toNat = e.toNat := by omega
  have hsignificand : BitVec.ofNat 52 (2 ^ 52 + m.toNat) = m := by
    apply BitVec.eq_of_toNat_eq
    rw [BitVec.toNat_ofNat, Nat.add_mod_left, Nat.mod_eq_of_lt hm]
  rw [pack_finite, hbias, if_neg (by omega), if_pos (by omega), hsignificand, BitVec.ofNat_toNat, BitVec.setWidth_eq]

theorem pack_ofFields (s : Sign) {e : BitVec 11} {m : BitVec 52} (h : e.toNat = 2047 → m.toNat = 0) :
    pack Format.binary64 (ofFields s e.toNat m.toNat) = packComponents Format.binary64 s e m := by
  by_cases hmax : e.toNat = 2047
  · rw [ofFields, if_pos hmax, if_pos (h hmax), toNat_eq_zero.1 (h hmax), toNat_eq_max.2 hmax]
    rfl
  · by_cases hzero : e.toNat = 0
    · rw [hzero, toNat_eq_zero.1 hzero]
      by_cases hm : 0 < m.toNat
      · rw [ofFields_subnormal s hm]
        exact pack_subnormal s hm
      · rw [toNat_eq_zero.1 (Nat.eq_zero_of_not_pos hm)]
        rfl
    · rw [ofFields_normal s hmax hzero]
      exact pack_normal s hmax hzero _

/-! ## Doubles -/

/-- Every double is that of its fields. -/
theorem exists_fields (x : Float) : ∃ (s : Sign) (e : BitVec 11) (m : BitVec 52),
    x.toModel.toBits.toBitVec = packComponents Format.binary64 s e m ∧
      x.toModel.unpack = ofFields s e.toNat m.toNat := by
  obtain ⟨s, e, m, h⟩ := exists_components x.toModel.toBits.toBitVec
  refine ⟨s, e, m, h, ?_⟩
  show unpack Format.binary64 x.toModel.toBits.toBitVec = _
  rw [h, unpack_packComponents]

/-- Unpacking loses nothing, as a NaN has one significand only. -/
theorem pack_unpack (x : Float) : pack Format.binary64 x.toModel.unpack = x.toModel.toBits.toBitVec := by
  obtain ⟨s, e, m, hbits, hunpack⟩ := exists_fields x
  by_cases h : e.toNat = 2047 → m.toNat = 0
  · rw [hunpack, pack_ofFields s h, hbits]
  · obtain ⟨he, hm⟩ := Classical.not_imp.1 h
    have hnan := x.toModel.valid.eq_packedNaN
    rw [hbits, unpackExponent_packComponents, unpackMantissa_packComponents] at hnan
    rw [hunpack, hbits, hnan (toNat_eq_max.2 he) (mt toNat_eq_zero.2 hm), ofFields, if_pos he, if_neg hm]
    rfl

theorem unpack_injective {x y : Float} (h : x.toModel.unpack = y.toModel.unpack) : x = y := by
  have hbits : x.toModel.toBits.toBitVec = y.toModel.toBits.toBitVec := by
    rw [← pack_unpack x, ← pack_unpack y, h]
  rcases x with ⟨⟨x, hx⟩⟩
  rcases y with ⟨⟨y, hy⟩⟩
  obtain rfl : x = y := UInt64.toBitVec_inj.1 hbits
  rfl

theorem Place.mk_inj {a b c d e f : ℤ} : Place.mk a b c = Place.mk d e f ↔ a = d ∧ b = e ∧ c = f := by
  simp [Place.mk]

theorem eq_of_unpackedPlace {a b : UnpackedFloat} {p : Place} (ha : p ∈ unpackedPlace? a) (hb : p ∈ unpackedPlace? b)
    (hzero : p ≠ Place.mk 0 0 0) : a = b := by
  have hplaces : unpackedPlace? a = unpackedPlace? b := ha.trans hb.symm
  rcases a with ⟨_ | _⟩ | _ | _ | ⟨_ | _, m, e, hm⟩ <;> rcases b with ⟨_ | _⟩ | _ | _ | ⟨_ | _, n, f, hn⟩
  case zero.zero => exact absurd (Option.some.inj ha).symm hzero
  case finite.negative.finite.negative =>
    obtain ⟨-, he, hm'⟩ := Place.mk_inj.1 (Option.some.inj hplaces)
    obtain ⟨rfl, rfl⟩ : e = f ∧ m = n := by omega
    rfl
  case finite.positive.finite.positive =>
    obtain ⟨-, he, hm'⟩ := Place.mk_inj.1 (Option.some.inj hplaces)
    obtain ⟨rfl, rfl⟩ : e = f ∧ m = n := by omega
    rfl
  all_goals first | rfl | exact absurd (Place.mk_inj.1 (Option.some.inj hplaces)).1 (by decide) | cases hplaces

/-- Equal doubles are the same, except for zeros. -/
theorem eq_of_beq {x y : Float} (h : (x == y) = true) (hzero : (x == 0) = false) : x = y := by
  obtain ⟨p, hx, hy⟩ := (beq_iff_place x y).1 h
  refine unpack_injective (eq_of_unpackedPlace hx hy ?_)
  rintro rfl
  rw [(beq_iff_place x 0).2 ⟨_, hx, rfl⟩] at hzero
  exact nomatch hzero

theorem unpack_finite {x : Float} {s : Sign} {m : ℕ} {e : ℤ} {hm : 0 < m}
    (h : x.toModel.unpack = .finite s m e hm) : Canonical m e ∧ e ≤ 971 := by
  obtain ⟨s', e', m', -, hunpack⟩ := exists_fields x
  have he := e'.isLt
  have hm' := m'.isLt
  rw [h] at hunpack
  by_cases hmax : e'.toNat = 2047
  · rw [ofFields, if_pos hmax] at hunpack
    by_cases hinf : m'.toNat = 0
    · rw [if_pos hinf] at hunpack
      cases hunpack
    · rw [if_neg hinf] at hunpack
      cases hunpack
  by_cases hzero : e'.toNat = 0
  · by_cases hpos : 0 < m'.toNat
    · rw [hzero, ofFields_subnormal s' hpos] at hunpack
      obtain ⟨rfl, rfl, rfl⟩ := UnpackedFloat.finite.inj hunpack
      exact ⟨⟨by omega, by omega, by omega⟩, by omega⟩
    · rw [ofFields, if_neg hmax, if_pos hzero, dif_neg hpos] at hunpack
      cases hunpack
  · rw [ofFields_normal s' hmax hzero] at hunpack
    obtain ⟨rfl, rfl, rfl⟩ := UnpackedFloat.finite.inj hunpack
    exact ⟨⟨by omega, by omega, by omega⟩, by omega⟩

theorem Canonical.exists_fields {m : ℕ} {e : ℤ} (h : Canonical m e) (hm : 0 < m) (he : e ≤ 971) (s : Sign) :
    ∃ (e' : BitVec 11) (m' : BitVec 52), e'.toNat ≠ 2047 ∧ .finite s m e hm = ofFields s e'.toNat m'.toNat := by
  have hlt := h.significand_lt
  have hge := h.exponent_ge
  by_cases hfull : 2 ^ 52 ≤ m
  · obtain ⟨k, rfl⟩ := Nat.exists_eq_add_of_le hfull
    obtain ⟨n, rfl⟩ : ∃ n : ℕ, e = n - 1075 := ⟨(e + 1075).toNat, by omega⟩
    have hn : (BitVec.ofNat 11 n).toNat = n := Nat.mod_eq_of_lt (by omega)
    have hk : (BitVec.ofNat 52 k).toNat = k := Nat.mod_eq_of_lt (by omega)
    refine ⟨.ofNat 11 n, .ofNat 52 k, by omega, ?_⟩
    rw [hn, hk, ofFields_normal s (by omega) (by omega)]
  · obtain rfl := h.full.resolve_left hfull
    have hm' : (BitVec.ofNat 52 m).toNat = m := Nat.mod_eq_of_lt (by omega)
    refine ⟨0#11, .ofNat 52 m, by decide, ?_⟩
    rw [hm', BitVec.toNat_zero, ofFields_subnormal s hm]

/-- Packing loses nothing that fits. -/
theorem unpack_pack {m : ℕ} {e : ℤ} (h : Canonical m e) (hm : 0 < m) (he : e ≤ 971) (s : Sign) :
    (Float.Model.pack (.finite s m e hm)).unpack = .finite s m e hm := by
  obtain ⟨e', m', hmax, heq⟩ := h.exists_fields hm he s
  show unpack Format.binary64 (pack Format.binary64 _) = _
  rw [heq, pack_ofFields s fun h => absurd h hmax, unpack_packComponents]

end CoverSearch.Double
