import CoverSearch.Proofs.Success
import CoverSearch.Proofs.Value.Order
import CoverSearch.Random

/-!
# Random choices that are answered

A keystream never ends, so a choice made from one fails only where it is asked for something that there is not: a number
of an empty range, or an event of no probability. What a choice can give is said apart from that, for scripts as well.

* `Source.IsKeyed` : sources that never end;
* `Draw.Gives`, `Draw.Answers` : what a choice can give, and that it gives something from every such source;
* `Draw.Inherits` : a property that words have and that composition keeps;
* `Draw.scaled_lt`, `Draw.le_of_ranged`, `Draw.index_lt` : the numbers that are given lie in their range;
* `Draw.Inherits.ranged`, `Draw.Inherits.chance` : such a property holds for ranges that are not empty and for
  probabilities;
* `Draw.inherits_answers` : being answered is such a property.
-/

namespace CoverSearch

variable {α β : Type} {range r n lo hi bound : Nat} {p : Float}

/-- A source that never runs out of words. -/
def Source.IsKeyed : Source → Prop
  | .script .. => False
  | .keyed .. => True

theorem Source.isKeyed_ofSeed (seed : UInt64) : (Source.ofSeed seed).IsKeyed := trivial

namespace Draw

/-- A choice can have this outcome. -/
def Gives (d : Draw α) (a : α) : Prop := ∃ source source', d source = .ok (a, source')

/-- A choice has some outcome whenever its source does not end, and leaves such a source behind. -/
def Answers (d : Draw α) : Prop :=
  ∀ source, source.IsKeyed → ∃ a source', d source = .ok (a, source') ∧ source'.IsKeyed

/-! ## Composition -/

theorem Gives.of_pure {a b : α} (h : Gives (pure a) b) : a = b := by
  obtain ⟨source, source', h⟩ := h
  exact (ok_pair_inj h).1

theorem Gives.of_bind {d : Draw α} {f : α → Draw β} {b : β} (h : Gives (d >>= f) b) :
    ∃ a, Gives d a ∧ Gives (f a) b := by
  obtain ⟨source, source', h⟩ := h
  obtain ⟨⟨a, source₁⟩, ha, hb⟩ := bind_eq_ok.1 h
  exact ⟨a, ⟨source, source₁, ha⟩, source₁, source', hb⟩

theorem Answers.pure (a : α) : Answers (pure a) := fun source hsource => ⟨a, source, rfl, hsource⟩

theorem Answers.bind {d : Draw α} {f : α → Draw β} (hd : Answers d) (hf : ∀ a, Gives d a → Answers (f a)) :
    Answers (d >>= f) := by
  intro source hsource
  obtain ⟨a, source₁, ha, hsource₁⟩ := hd source hsource
  obtain ⟨b, source₂, hb, hsource₂⟩ := hf a ⟨source, source₁, ha⟩ source₁ hsource₁
  exact ⟨b, source₂, bind_eq_ok.2 ⟨(a, source₁), ha, hb⟩, hsource₂⟩

/-- A property that words have, and every choice that is composed of ones with the property. -/
structure Inherits (K : ∀ {α : Type}, Draw α → Prop) : Prop where
  pure : ∀ {α : Type} (a : α), K (Pure.pure a : Draw α)
  bind : ∀ {α β : Type} {d : Draw α} {f : α → Draw β}, K d → (∀ a, Gives d a → K (f a)) → K (d >>= f)
  word32 : K word32
  word64 : K word64

/-! ## Words -/

theorem answers_word32 : Answers word32 := by
  rintro (_ | ⟨key, counter, pending⟩) hsource
  · exact hsource.elim
  · cases pending with
    | cons w pending => exact ⟨w, _, rfl, trivial⟩
    | nil =>
      rw [word32]
      rcases hblock : Keystream.block key counter with _ | ⟨w, pending⟩
      · -- a block has sixteen words
        have hlength := congrArg List.length hblock
        rw [Keystream.block, Vector.length_toList] at hlength
        cases hlength
      · exact ⟨w, _, rfl, trivial⟩

theorem answers_word64 : Answers word64 := by
  rintro (_ | ⟨key, counter, pending⟩) hsource
  · exact hsource.elim
  · have hpair : Answers (do
        let low ← word32
        let high ← word32
        return low.toUInt64 ||| (high.toUInt64 <<< 32) : Draw UInt64) :=
      answers_word32.bind fun _ _ => answers_word32.bind fun _ _ => .pure _
    exact hpair _ hsource

theorem inherits_answers : Inherits @Answers where
  pure := .pure
  bind := .bind
  word32 := answers_word32
  word64 := answers_word64

/-! ## Natural numbers -/

/-- The high part of a product is below `r`, and it stays so after the carry of a second product, whose own high part is
below `r` as well. -/
theorem scaled_lt {word : Draw Nat} (hr : 0 < r) (hword : ∀ x, Gives word x → x < range)
    (h : Gives (scaled range word r) n) : n < r := by
  obtain ⟨x, hx, h⟩ := h.of_bind
  have hx := hword x hx
  have hpos : 0 < range := Nat.zero_lt_of_lt hx
  have hhigh : x * r / range < r := Nat.div_lt_of_lt_mul (Nat.mul_lt_mul_of_pos_right hx hr)
  split at h <;> rename_i heq
  · obtain rfl := h.of_pure
    exact heq ▸ hx
  · dsimp only at h
    split at h
    · obtain ⟨y, hy, h⟩ := h.of_bind
      have hcarry : y * r / range < r := Nat.div_lt_of_lt_mul (Nat.mul_lt_mul_of_pos_right (hword y hy) hr)
      obtain rfl := h.of_pure
      split <;> rename_i hover
      · have hproduct := Nat.div_add_mod (x * r) range
        have hbelow : (x + 1) * r ≤ range * r := Nat.mul_le_mul_right r hx
        have hnext : range * (x * r / range + 1) < range * r := by
          rw [Nat.mul_add, Nat.mul_one]
          rw [Nat.add_mul, Nat.one_mul] at hbelow
          omega
        exact Nat.lt_of_mul_lt_mul_left hnext
      · exact hhigh
    · obtain rfl := h.of_pure
      exact hhigh

theorem le_of_ranged (h : Gives (ranged lo hi bound) n) : lo ≤ n ∧ n ≤ hi := by
  unfold ranged at h
  split at h
  · obtain ⟨source, source', h⟩ := h
    exact nomatch h
  · have hrange : ∀ range (word : Draw Nat), (∀ x, Gives word x → x < range) →
        Gives (do return lo + (← scaled range word (hi - lo + 1))) n → lo ≤ n ∧ n ≤ hi := by
      intro range word hword h
      obtain ⟨x, hx, h⟩ := h.of_bind
      obtain rfl := h.of_pure
      have := scaled_lt (Nat.succ_pos _) hword hx
      omega
    split at h
    · refine hrange _ _ (fun x hx => ?_) h
      obtain ⟨w, -, hw⟩ := hx.of_bind
      exact hw.of_pure ▸ w.toNat_lt
    · refine hrange _ _ (fun x hx => ?_) h
      obtain ⟨w, -, hw⟩ := hx.of_bind
      exact hw.of_pure ▸ w.toNat_lt

theorem index_lt {i : Nat} (h : Gives (index n) i) : i < n := by
  unfold index at h
  split at h
  · obtain ⟨source, source', h⟩ := h
    exact nomatch h
  · have := (le_of_ranged h).2
    omega

/-! ## Inherited properties -/

namespace Inherits
variable {K : ∀ {α : Type}, Draw α → Prop} (h : Inherits @K)
include h

/-- What is there already is no choice. -/
theorem liftExcept {x : Except Fault α} {a : α} (hx : x = .ok a) : K (liftM x : Draw α) := by
  subst hx
  exact h.pure a

theorem scaled {word : Draw Nat} (hword : K word) : K (scaled range word r) := by
  refine h.bind hword fun x _ => ?_
  split
  · exact h.pure _
  · dsimp only
    split
    · exact h.bind hword fun y _ => h.pure _
    · exact h.pure _

theorem ranged (hle : lo ≤ hi) : K (ranged lo hi bound) := by
  unfold Draw.ranged
  rw [if_neg (Nat.not_lt.2 hle)]
  split
  · exact h.bind (h.scaled (h.bind h.word32 fun _ _ => h.pure _)) fun _ _ => h.pure _
  · exact h.bind (h.scaled (h.bind h.word64 fun _ _ => h.pure _)) fun _ _ => h.pure _

theorem upTo (n : Nat) : K (upTo n) := h.ranged (Nat.zero_le n)

theorem index (hn : 0 < n) : K (index n) := by
  unfold Draw.index
  rw [if_neg (by omega)]
  exact h.ranged (Nat.zero_le _)

theorem fraction (x : Float) : K (fraction x) := h.bind h.word64 fun _ _ => h.pure _

theorem chance (hp : within 0 1 p = true) : K (chance p) := by
  obtain ⟨hzero, hone⟩ := Bool.and_eq_true_iff.1 hp
  unfold Draw.chance
  split <;> rename_i hcertain
  · exact h.pure true
  · have hlt := Double.lt_of_le_of_beq_eq_false (of_decide_eq_true hone) (Bool.eq_false_iff.2 hcertain)
    rw [if_pos (by simp [of_decide_eq_true hzero, hlt])]
    exact h.bind h.word64 fun _ _ => h.pure _

end Inherits

end Draw

/-- A double of an interval is not moved. -/
theorem clamp_of_within {a b x : Float} (h : within a b x = true) : clamp a b x = x := by
  obtain ⟨ha, hb⟩ := Bool.and_eq_true_iff.1 h
  have ha := of_decide_eq_true ha
  have hb := of_decide_eq_true hb
  have hx := Double.isNaN_of_le hb
  unfold clamp
  rw [if_neg ((Double.le_iff_not_lt (Double.isNaN_of_le ha) hx).1 ha),
    if_neg ((Double.le_iff_not_lt hx (Double.isNaN_of_le_right hb)).1 hb)]

end CoverSearch
