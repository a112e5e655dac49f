import CoverSearch.Config
import CoverSearch.Program
import CoverSearch.Proofs.Random.Answers

/-!
# Breeding never fails

A selection among two or more individuals gives one of their positions, both by rank and by tournament, and the rates of
a valid configuration are probabilities. So a breeder answers every request for which there is room, as long as mutation
and crossover do; and what is said here of being answered holds for every property that words have and composition
keeps.

* `Selection.select_lt`, `Selection.inherits_select` : what is selected is there;
* `Breeder.inherits_offspring` : offspring have a property that mutation and crossover have;
* `Breeder.Varies` : rates that are probabilities, for individuals whose variation does not fail;
* `Breeder.Varies.answers_offspring` : a breeder answers;
* `Config.varies_breeder` : so does the breeder of a valid configuration;
* `Program.inherits_mutate`, `Program.inherits_crossover` : programs can be varied, also empty ones.
-/

namespace CoverSearch

open Draw

variable {K : ∀ {α : Type}, Draw α → Prop}

/-! ## Selection -/

namespace Selection

variable {bias step threshold sum : Float} {size n i j left best : Nat}

theorem firstAbove?_lt (h : firstAbove? bias step threshold left i sum = some j) : j < i + left := by
  induction left generalizing i sum with
  | zero => exact nomatch h
  | succ left ih =>
    unfold firstAbove? at h
    dsimp only at h
    split at h
    · obtain rfl := Option.some.inj h
      omega
    · have := ih h
      omega

theorem leastPick_le (h : Gives (leastPick size n best) i) : i ≤ best := by
  induction n generalizing best with
  | zero =>
    obtain rfl := h.of_pure
    exact Nat.le_refl _
  | succ n ih =>
    obtain ⟨j, -, h⟩ := h.of_bind
    exact (ih h).trans (Nat.min_le_left _ _)

theorem inherits_leastPick (h : Inherits @K) (hsize : 0 < size) : K (leastPick size n best) := by
  induction n generalizing best with
  | zero => exact h.pure _
  | succ n ih => exact h.bind (h.index hsize) fun j _ => ih

theorem rankPick_lt (hsize : 0 < size) (h : Gives (rankPick size bias) i) : i < size := by
  obtain ⟨threshold, -, h⟩ := h.of_bind
  obtain rfl := h.of_pure
  rcases hfirst : firstAbove? _ _ threshold size 0 0 with _ | j
  · exact Nat.sub_lt hsize Nat.one_pos
  · have := firstAbove?_lt hfirst
    rw [Nat.zero_add] at this
    exact this

/-- A selected position is one of the population. -/
theorem select_lt {s : Selection} (hsize : 2 ≤ size) (h : Gives (s.select size) i) : i < size := by
  unfold select at h
  rw [if_neg (by omega)] at h
  cases s with
  | rank bias => exact rankPick_lt (by omega) h
  | tournament n =>
    obtain ⟨j, hj, h⟩ := h.of_bind
    exact (leastPick_le h).trans_lt (index_lt hj)

theorem inherits_select (h : Inherits @K) (s : Selection) (hsize : 2 ≤ size) : K (s.select size) := by
  unfold select
  rw [if_neg (by omega)]
  cases s with
  | rank bias => exact h.bind (h.fraction _) fun _ _ => h.pure _
  | tournament n => exact h.bind (h.index (by omega)) fun j _ => inherits_leastPick h (by omega)

end Selection

/-! ## Offspring -/

namespace Breeder

variable {C : Type} [Chromosome C] {b : Breeder} {population : Array C}

omit [Chromosome C] in
theorem inherits_parent (h : Inherits @K) (hpopulation : 2 ≤ population.size) : K (b.parent population) := by
  refine h.bind (b.selection.inherits_select h hpopulation) fun i hi => ?_
  rw [Array.getElem?_eq_getElem (Selection.select_lt hpopulation hi)]
  exact h.pure _

section
variable (h : Inherits @K) (hcrossed : within 0 1 b.crossoverRate = true) (hmutated : within 0 1 b.mutationRate = true)
  (hcrossover : ∀ c d : C, K (Chromosome.crossover c d)) (hmutate : ∀ c : C, K (Chromosome.mutate c))
include h hmutated hmutate

theorem inherits_finish (child : C) : K (b.finish child) := by
  refine h.bind (h.chance hmutated) fun mutated _ => ?_
  cases mutated with
  | true => exact hmutate child
  | false => exact h.pure child

include hcrossed hcrossover

theorem inherits_pair (hpopulation : 2 ≤ population.size) : K (b.pair population) := by
  refine h.bind (inherits_parent h hpopulation) fun p _ => h.bind (inherits_parent h hpopulation) fun q _ => ?_
  refine h.bind (h.chance hcrossed) fun crossed _ => ?_
  have hfinish : ∀ children : C × C, K (do return (← b.finish children.1, ← b.finish children.2)) := fun children =>
    h.bind (inherits_finish h hmutated hmutate _) fun _ _ =>
      h.bind (inherits_finish h hmutated hmutate _) fun _ _ => h.pure _
  cases crossed with
  | true => exact h.bind (hcrossover p q) fun children _ => hfinish children
  | false => exact h.bind (h.pure (p, q)) fun children _ => hfinish children

theorem inherits_children (hpopulation : 2 ≤ population.size) (n : Nat) : K (b.children population n) := by
  have hpair := inherits_pair h hcrossed hmutated hcrossover hmutate hpopulation
  induction n using Nat.twoStepInduction with
  | zero => exact h.pure []
  | one =>
    have htoss : within 0 1 0.5 = true := by decide +kernel
    exact h.bind hpair fun _ _ => h.bind (h.chance htoss) fun first _ => h.pure _
  | more n ih _ => exact h.bind hpair fun _ _ => h.bind ih fun _ _ => h.pure _

theorem inherits_offspring {parents : List C} {size : Nat} (hparents : 2 ≤ parents.length)
    (hroom : reserve size (individualBytes C) = .ok ()) : K (b.offspring parents size) :=
  h.bind (h.liftExcept hroom) fun _ _ =>
    inherits_children h hcrossed hmutated hcrossover hmutate (by simpa using hparents) size

end

/-- Whether to cross or to mutate can be decided, and both can be done. -/
structure Varies (b : Breeder) (C : Type) [Chromosome C] : Prop where
  crossoverRate : within 0 1 b.crossoverRate = true
  mutationRate : within 0 1 b.mutationRate = true
  crossover : ∀ c d : C, Answers (Chromosome.crossover c d)
  mutate : ∀ c : C, Answers (Chromosome.mutate c)

theorem Varies.answers_offspring (h : b.Varies C) {parents : List C} {size : Nat} (hparents : 2 ≤ parents.length)
    (hroom : reserve size (individualBytes C) = .ok ()) : Answers (b.offspring parents size) :=
  inherits_offspring inherits_answers h.crossoverRate h.mutationRate h.crossover h.mutate hparents hroom

end Breeder

/-! ## Valid configurations -/

namespace Config

variable {c : Config}

theorem rates_of_validate (h : c.validate = .ok ()) :
    within 0 1 c.crossoverRate = true ∧ within 0 1 c.mutationRate = true := by
  unfold validate at h
  split at h
  · exact nomatch h
  split at h
  · exact nomatch h
  split at h <;> rename_i hcrossover
  · exact nomatch h
  split at h <;> rename_i hmutation
  · exact nomatch h
  exact ⟨by simpa using hcrossover, by simpa using hmutation⟩

/-- The rates of a valid configuration are kept as they are. -/
theorem varies_breeder {C : Type} [Chromosome C] (h : c.validate = .ok ())
    (hcrossover : ∀ c d : C, Answers (Chromosome.crossover c d)) (hmutate : ∀ c : C, Answers (Chromosome.mutate c)) :
    c.breeder.Varies C := by
  obtain ⟨hcrossed, hmutated⟩ := rates_of_validate h
  refine ⟨?_, ?_, hcrossover, hmutate⟩
  · show within 0 1 (clamp 0 1 c.crossoverRate) = true
    rwa [clamp_of_within hcrossed]
  · show within 0 1 (clamp 0 1 c.mutationRate) = true
    rwa [clamp_of_within hmutated]

end Config

/-! ## Programs -/

namespace Program

theorem inherits_insertOpcode (h : Inherits @K) (opcodes : List Nat) : K (insertOpcode opcodes) :=
  h.bind (h.upTo _) fun _ _ => h.bind (h.index (by decide)) fun _ _ => h.pure _

theorem inherits_removeOpcode (h : Inherits @K) {opcodes : List Nat} (hopcodes : opcodes ≠ []) :
    K (removeOpcode opcodes) :=
  h.bind (h.index (List.length_pos_iff.2 hopcodes)) fun _ _ => h.pure _

/-- Nothing is left out of an empty program. -/
theorem inherits_mutate (h : Inherits @K) (p : Program) : K (Chromosome.mutate p) := by
  show K (mutate p)
  unfold mutate
  split
  · exact h.bind (inherits_insertOpcode h _) fun _ _ => h.pure _
  · next hempty =>
    refine h.bind (h.chance (by decide +kernel)) fun remove _ => ?_
    split
    · exact h.bind (inherits_removeOpcode h fun hp => hempty (List.isEmpty_iff.2 hp)) fun _ _ => h.pure _
    · exact h.bind (inherits_insertOpcode h _) fun _ _ => h.pure _

theorem inherits_crossover (h : Inherits @K) (p q : Program) : K (Chromosome.crossover p q) := by
  show K (crossover p q)
  exact h.bind (h.upTo _) fun _ _ => h.bind (h.upTo _) fun _ _ => h.pure _

end Program

end CoverSearch
