import CoverSearch.Json.Fields
import CoverSearch.Proofs.Json.RoundTrip
import CoverSearch.Proofs.Success
import CoverSearch.Proofs.Value.Hops

/-!
# Values of a known shape

Words, strings and structures can be written, and what is asked of them in reading is what they were made of.

* `Json.writable_ofWord`, `Json.writable_ofString`, `Json.writable_ofFields` : they can be written;
* `Json.word?_eq_some_iff` : how a word is written;
* `Json.word?_ofWord`, `Json.text?_ofString`, `Json.items?_array_map`, `Json.fields?_ofFields` : what is read in them;
* `Json.decodable_ofWord` : a word is no too great number where all numbers are read as doubles.
-/

namespace CoverSearch.Json

/-! ## Strings -/

theorem Text.writable_ofString (s : String) : ∀ p ∈ Text.ofString s, p.Writable := by
  unfold Text.ofString
  rw [List.forall_mem_map]
  intro c _
  split
  · next hc =>
    show c.toNat < 0x10000
    omega
  · next hc => exact not_lt.1 hc

@[simp] theorem writable_ofString (s : String) : (ofString s).Writable := by
  rw [Writable, ofString, tokens, List.forall_mem_singleton]
  exact Text.writable_ofString s

/-- A unit below the surrogates is a character, whatever follows. -/
theorem Text.decode?_code {unit : Nat} (h : unit < 0xD800) (s : Text) :
    Text.decode? (.code unit :: s) = (Text.decode? s).map (Char.ofNat unit :: ·) := by
  have hhigh : isHighSurrogate unit = false := by
    simp [isHighSurrogate, h]
  have hlow : isLowSurrogate unit = false := by
    simp [isLowSurrogate]
    omega
  rcases s with _ | ⟨_ | _, s⟩ <;> simp [Text.decode?, hhigh, hlow]

theorem Text.decode?_ofString (s : String) : (Text.ofString s).decode? = some s.toList := by
  unfold Text.ofString
  induction s.toList with
  | nil => rfl
  | cons c cs ih =>
    rw [List.map_cons]
    split
    · next hc => rw [Text.decode?_code (by omega), ih, Option.map_some, Char.ofNat_toNat]
    · rw [Text.decode?, ih, Option.map_some]

@[simp] theorem text?_ofString (s : String) : (ofString s).text? = some s := by
  rw [ofString, text?, Text.decode?_ofString, Option.map_some, String.ofList_toList]

/-! ## Words -/

theorem head?_toDigits {n : Nat} (h : (Nat.toDigits 10 n).head? = some '0') : n = 0 := by
  induction n using Nat.strongRecOn with
  | ind n ih =>
    rcases Nat.lt_or_ge n 10 with hn | hn
    · rw [Nat.toDigits_of_lt_base hn] at h
      exact Nat.digitChar_eq_zero.1 (Option.some.inj h)
    · rw [Nat.toDigits_of_base_le (by decide) hn, head?_append_of_ne_nil Nat.toDigits_ne_nil] at h
      have := ih (n / 10) (by omega) h
      omega

theorem Numeral.writable_ofNat (n : Nat) : (Numeral.ofNat n).Writable where
  whole := ⟨Nat.toDigits_ne_nil, fun _ hc => Nat.isDigit_of_mem_toDigits (by decide) (by decide) hc⟩
  zero h := by
    obtain rfl := head?_toDigits h
    rfl
  fraction := nofun
  exponent := nofun

@[simp] theorem writable_ofWord (n : UInt64) : (ofWord n).Writable := by
  rw [Writable, ofWord, tokens, List.forall_mem_singleton]
  exact Numeral.writable_ofNat n.toNat

@[simp] theorem word?_ofWord (n : UInt64) : (ofWord n).word? = some n := by
  show (Numeral.ofNat n.toNat).word? = _
  unfold Numeral.ofNat Numeral.word?
  dsimp only
  rw [Nat.ofDigitChars_ten_toDigits, if_pos n.toNat_lt, UInt64.ofNat_toNat]

theorem digitChar_of_isDigit {c : Char} (hc : c.isDigit = true) :
    c.toNat - '0'.toNat < 10 ∧ Nat.digitChar (c.toNat - '0'.toNat) = c := by
  simp only [Char.isDigit, Bool.and_eq_true, decide_eq_true_eq] at hc
  obtain ⟨hlower, hupper⟩ := hc
  have hzero : '0'.toNat = 48 := rfl
  have hfrom : 48 ≤ c.toNat := hlower
  have hto : c.toNat ≤ 57 := hupper
  have hlt : c.toNat - '0'.toNat < 10 := by omega
  refine ⟨hlt, Char.toNat_inj.1 ?_⟩
  rw [Nat.toNat_digitChar_of_lt_ten hlt]
  omega

/-- Digits without leading zeros are those of their value. -/
theorem toDigits_ofDigitChars {ds : List Char} (hds : IsDigits ds) (hzero : ds.head? = some '0' → ds.length = 1) :
    Nat.toDigits 10 (Nat.ofDigitChars 10 ds 0) = ds := by
  induction ds using List.reverseRecOn with
  | nil => exact absurd rfl hds.1
  | append_singleton ds c ih =>
    obtain ⟨hlt, hchar⟩ := digitChar_of_isDigit (hds.2 c (by simp))
    rw [Nat.ofDigitChars_append, Nat.ofDigitChars_cons, Nat.ofDigitChars_nil]
    rcases ds with _ | ⟨d, ds⟩
    · rw [Nat.ofDigitChars_nil, Nat.mul_zero, Nat.zero_add, Nat.toDigits_of_lt_base hlt, hchar]
      rfl
    · have hne : d ≠ '0' := by
        rintro rfl
        have := hzero rfl
        simp at this
      have hfront := ih ⟨List.cons_ne_nil d ds, fun x hx => hds.2 x (List.mem_append_left _ hx)⟩
        fun h => absurd (Option.some.inj h) hne
      -- the digits in front do not start with a zero, so their value is none
      have hpos : 0 < Nat.ofDigitChars 10 (d :: ds) 0 := by
        refine Nat.pos_of_ne_zero fun h => hne ?_
        rw [h] at hfront
        exact (List.cons.inj hfront).1.symm
      rw [← Nat.toDigits_append_toDigits (by decide) hpos hlt, hfront, Nat.toDigits_of_lt_base hlt, hchar]

theorem Numeral.eq_ofNat_of_word? {n : Numeral} (hn : n.Writable) {w : UInt64} (h : n.word? = some w) :
    n = .ofNat w.toNat := by
  unfold Numeral.word? at h
  split at h
  · next whole =>
    dsimp only at h
    split at h
    · next hlt =>
      obtain rfl := Option.some.inj h
      rw [ofNat, UInt64.toNat_ofNat_of_lt' hlt, toDigits_ofDigitChars hn.whole hn.zero]
    · cases h
  · cases h

/-- A number that is a word is written as one. -/
theorem word?_eq_some_iff {v : Json} (hv : ∀ n, .number n ∈ v.tokens → n.Writable) {w : UInt64} :
    v.word? = some w ↔ v = .ofWord w := by
  constructor
  · intro h
    cases v with
    | number n =>
      have hn : n.Writable := hv n (by rw [tokens]; exact List.mem_cons_self)
      exact congrArg Json.number (Numeral.eq_ofNat_of_word? hn h)
    | null | bool b | string s | array items | object fields => cases h
  · rintro rfl
    exact word?_ofWord w

/-! ## Parts of values -/

theorem tokens_subset_itemTokens {items : List Json} {item : Json} (h : item ∈ items) :
    item.tokens ⊆ itemTokens items := by
  induction items with
  | nil => exact absurd h List.not_mem_nil
  | cons next items ih =>
    rw [itemTokens]
    apply List.subset_cons_of_subset
    rcases List.mem_cons.1 h with rfl | h
    · exact List.subset_append_left _ _
    · exact List.subset_append_of_subset_right _ (ih h)

theorem tokens_subset_array {items : List Json} {item : Json} (h : item ∈ items) :
    item.tokens ⊆ (Json.array items).tokens := by
  cases items with
  | nil => exact absurd h List.not_mem_nil
  | cons next items =>
    rw [tokens]
    apply List.subset_cons_of_subset
    rcases List.mem_cons.1 h with rfl | h
    · exact List.subset_append_left _ _
    · exact List.subset_append_of_subset_right _ (tokens_subset_itemTokens h)

theorem tokens_subset_fieldTokens {fields : List (Text × Json)} {f : Text × Json} (h : f ∈ fields) :
    f.2.tokens ⊆ fieldTokens fields := by
  induction fields with
  | nil => exact absurd h List.not_mem_nil
  | cons next fields ih =>
    rw [fieldTokens]
    iterate 3 apply List.subset_cons_of_subset
    rcases List.mem_cons.1 h with rfl | h
    · exact List.subset_append_left _ _
    · exact List.subset_append_of_subset_right _ (ih h)

theorem tokens_subset_object {fields : List (Text × Json)} {f : Text × Json} (h : f ∈ fields) :
    f.2.tokens ⊆ (Json.object fields).tokens := by
  cases fields with
  | nil => exact absurd h List.not_mem_nil
  | cons next fields =>
    rw [tokens]
    iterate 3 apply List.subset_cons_of_subset
    rcases List.mem_cons.1 h with rfl | h
    · exact List.subset_append_left _ _
    · exact List.subset_append_of_subset_right _ (tokens_subset_fieldTokens h)

/-! ## Structures -/

theorem writable_ofFields {fields : List (String × Json)} (h : ∀ f ∈ fields, f.2.Writable) :
    (ofFields fields).Writable := by
  rw [ofFields, writable_object, List.forall_mem_map]
  exact fun f hf => ⟨Text.writable_ofString f.1, h f hf⟩

theorem decode?_fields (fields : List (String × Json)) :
    (fields.map fun f => (Text.ofString f.1, f.2)).mapM (fun f : Text × Json => f.1.decode?.map (·, f.2)) =
      some (fields.map fun f => (f.1.toList, f.2)) := by
  rw [List.mapM_map]
  refine mapM_eq_some_map fun f _ => ?_
  show (Text.ofString f.1).decode?.map _ = _
  rw [Text.decode?_ofString]
  rfl

theorem fields?_ofFields (names : List (List String)) (fields : List (String × Json)) :
    (ofFields fields).fields? names = names.mapM (field? (fields.map fun f => (f.1.toList, f.2))) := by
  show ((fields.map fun f => (Text.ofString f.1, f.2)).mapM
    (fun f : Text × Json => f.1.decode?.map (·, f.2)) >>= fun fields => names.mapM (field? fields)) = _
  rw [decode?_fields]
  rfl

variable {α β : Type}

theorem items?_array_map {f : Json → Option β} {g : α → Json} {k : α → β} {l : List α}
    (h : ∀ a ∈ l, f (g a) = some (k a)) : items? f (.array (l.map g)) = some (l.map k) := by
  rw [items?, List.mapM_map]
  exact mapM_eq_some_map h

/-! ## Words as doubles -/

theorem le_ofDigitChars (ds : List Char) (n : Nat) : n ≤ Nat.ofDigitChars 10 ds n := by
  rw [Nat.ofDigitChars_eq_ofDigitChars_zero]
  exact (Nat.le_mul_of_pos_left n (by positivity)).trans (Nat.le_add_right _ _)

/-- The digits of a number that fits in a word fit in it as they are gathered. -/
theorem gatherWhole_of_lt {ds : List Char} {word : Nat} (h : Nat.ofDigitChars 10 ds word < UInt64.size) :
    gatherWhole word ds = ⟨Nat.ofDigitChars 10 ds word, 0⟩ := by
  induction ds generalizing word with
  | nil => rfl
  | cons c ds ih =>
    rw [Nat.ofDigitChars_cons, Nat.mul_comm] at h ⊢
    have hfits : word * 10 + digitValue c < UInt64.size := (le_ofDigitChars ds _).trans_lt h
    rw [gatherWhole, if_pos hfits]
    exact ih h

theorem tenPower_zero : tenPower 0 = Float.ofBits 0x3FF0000000000000 := rfl

/-- A word is rounded to a finite double, and its power of ten is one. -/
theorem scaleUp?_ofNat {n : Nat} (h : n < UInt64.size) : (scaleUp? (Float.ofNat n) 0).isSome = true := by
  have hfinite : (Float.ofNat n * tenPower 0).isInf = false := by
    rcases Nat.eq_zero_or_pos n with rfl | hn
    · rfl
    · obtain ⟨q, hq, hle, -⟩ := Double.exists_hasValue_ofNat (Nat.le_of_lt h)
      have hone : (1 : ℕ) ≤ q :=
        ((Double.hasValue_ofNat (by decide)).le_iff hq).1 (Double.ofNat_le_ofNat (by decide) hn)
      have hpos : 0 < q := zero_lt_one.trans_le (by exact_mod_cast hone)
      rw [tenPower_zero]
      rcases Double.mul_one_rounded hq hpos with ⟨p, hp, -⟩ | ⟨-, hlt⟩
      · exact hp.isInf_eq_false
      · exact absurd (hle.trans (Double.two_pow_le_greatest (by decide))) (not_le.2 hlt)
  unfold scaleUp?
  dsimp only
  rw [if_pos (Nat.zero_le _), hfinite]
  rfl

/-- A word is a value that can be read as a double. -/
@[simp] theorem decodable_ofWord (room : Nat) (n : UInt64) : decodable room (ofWord n) = true := by
  rw [ofWord, decodable]
  unfold Numeral.float? Numeral.ofNat
  dsimp only
  rw [gatherWhole_of_lt (by rw [Nat.ofDigitChars_ten_toDigits]; exact n.toNat_lt), Nat.ofDigitChars_ten_toDigits,
    Option.isSome_map]
  exact scaleUp?_ofNat n.toNat_lt

end CoverSearch.Json
