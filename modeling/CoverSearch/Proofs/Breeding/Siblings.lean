import CoverSearch.Case
import CoverSearch.Proofs.Breeding
import CoverSearch.Proofs.Random.Streams

/-!
# Where children come from

Children are bred in pairs. Each pair has two parents in the population, whose copies or crossover it is, each child
then mutated or not; of the last pair one child is left out when their number is odd.

* `Breeder.Siblings` : two children of one pair of members, each as it was born or mutated;
* `Breeder.Bred` : as many children as are asked for, siblings next to each other;
* `Breeder.siblings_of_pair`, `Breeder.bred_of_children` : one step breeds siblings, and a run of steps all children;
* `Breeder.offspring_bred` : a breeder comes to an end on every source of words, with such children.
-/

namespace CoverSearch

open Draw

namespace Breeder

variable {C : Type} [Chromosome C] {b : Breeder} {population children : List C} {p q c d child : C} {n size : Nat}

/-- The children of two parents before mutation: both parents, or a crossover of them. -/
def Born (p q c d : C) : Prop := (c, d) = (p, q) ∨ Gives (Chromosome.crossover p q) (c, d)

/-- A child as it was born, or a mutation of it. -/
def Grown (child c : C) : Prop := c = child ∨ Gives (Chromosome.mutate child) c

/-- Two children that were born to one pair of members. -/
def Siblings (population : List C) (c d : C) : Prop :=
  ∃ p ∈ population, ∃ q ∈ population, ∃ c₀ d₀, Born p q c₀ d₀ ∧ Grown c₀ c ∧ Grown d₀ d

/-- As many children as are asked for, in pairs of siblings; the last of an odd number has a sibling that is left out.
-/
structure Bred (population : List C) (size : Nat) (children : List C) : Prop where
  length_eq : children.length = size
  pair : ∀ k c d, children[2 * k]? = some c → children[2 * k + 1]? = some d → Siblings population c d
  last : ∀ k c, size = 2 * k + 1 → children[2 * k]? = some c → ∃ d, Siblings population c d ∨ Siblings population d c

/-! ## One pair -/

omit [Chromosome C] in
theorem mem_of_parent (h : Gives (b.parent population.toArray) c) : c ∈ population := by
  obtain ⟨i, -, h⟩ := h.of_bind
  rcases hget : population.toArray[i]? with _ | p
  · rw [hget] at h
    obtain ⟨source, source', h⟩ := h
    cases h
  · rw [hget] at h
    obtain rfl := h.of_pure
    exact List.mem_toArray.1 (Array.mem_of_getElem? hget)

theorem grown_of_finish (h : Gives (b.finish child) c) : Grown child c := by
  obtain ⟨mutated, -, h⟩ := h.of_bind
  cases mutated with
  | true => exact Or.inr h
  | false => exact Or.inl h.of_pure.symm

theorem siblings_of_pair (h : Gives (b.pair population.toArray) (c, d)) : Siblings population c d := by
  obtain ⟨p, hp, h⟩ := h.of_bind
  obtain ⟨q, hq, h⟩ := h.of_bind
  obtain ⟨crossed, -, h⟩ := h.of_bind
  have hborn : ∃ c₀ d₀, Born p q c₀ d₀ ∧ Gives (do return (← b.finish c₀, ← b.finish d₀)) (c, d) := by
    cases crossed with
    | true =>
      obtain ⟨⟨c₀, d₀⟩, hcrossover, h⟩ := h.of_bind
      exact ⟨c₀, d₀, Or.inr hcrossover, h⟩
    | false =>
      obtain ⟨⟨c₀, d₀⟩, hcopies, h⟩ := h.of_bind
      exact ⟨c₀, d₀, Or.inl hcopies.of_pure.symm, h⟩
  obtain ⟨c₀, d₀, hborn, h⟩ := hborn
  obtain ⟨c', hc, h⟩ := h.of_bind
  obtain ⟨d', hd, h⟩ := h.of_bind
  cases h.of_pure
  exact ⟨p, mem_of_parent hp, q, mem_of_parent hq, c₀, d₀, hborn, grown_of_finish hc, grown_of_finish hd⟩

/-! ## All pairs -/

theorem Bred.nil : Bred population 0 [] where
  length_eq := rfl
  pair := fun k c d h => by simp at h
  last := fun k c h => by omega

theorem Bred.one (h : Siblings population c d) (hchild : child = c ∨ child = d) : Bred population 1 [child] where
  length_eq := rfl
  pair := fun k c d hc hd => by simp at hd
  last := by
    intro k c' hk hc
    obtain rfl : k = 0 := by omega
    obtain rfl : child = c' := Option.some.inj hc
    rcases hchild with rfl | rfl
    · exact ⟨d, Or.inl h⟩
    · exact ⟨c, Or.inr h⟩

/-- Two more siblings in front keep the others' pairs. -/
theorem Bred.cons_cons (h : Siblings population c d) (hchildren : Bred population n children) :
    Bred population (n + 2) (c :: d :: children) where
  length_eq := by simp [hchildren.length_eq]
  pair := by
    intro k c' d' hc hd
    cases k with
    | zero =>
      obtain rfl := Option.some.inj hc
      obtain rfl := Option.some.inj hd
      exact h
    | succ k => exact hchildren.pair k c' d' hc hd
  last := by
    intro k c' hk hc
    cases k with
    | zero => omega
    | succ k => exact hchildren.last k c' (by omega) hc

theorem bred_of_children (h : Gives (b.children population.toArray n) children) : Bred population n children := by
  induction n using Nat.twoStepInduction generalizing children with
  | zero =>
    obtain rfl := h.of_pure
    exact .nil
  | one =>
    obtain ⟨⟨c, d⟩, hpair, h⟩ := h.of_bind
    obtain ⟨first, -, h⟩ := h.of_bind
    cases first with
    | true =>
      obtain rfl := h.of_pure
      exact .one (siblings_of_pair hpair) (Or.inl rfl)
    | false =>
      obtain rfl := h.of_pure
      exact .one (siblings_of_pair hpair) (Or.inr rfl)
  | more n ih _ =>
    obtain ⟨⟨c, d⟩, hpair, h⟩ := h.of_bind
    obtain ⟨rest, hrest, h⟩ := h.of_bind
    obtain rfl := h.of_pure
    exact .cons_cons (siblings_of_pair hpair) (ih hrest)

/-- Every child is one of two siblings. -/
theorem Bred.exists_sibling (h : Bred population size children) (hc : c ∈ children) :
    ∃ d, Siblings population c d ∨ Siblings population d c := by
  obtain ⟨i, hi, hget⟩ := List.mem_iff_getElem.1 hc
  have hc : children[i]? = some c := List.getElem?_eq_some_iff.2 ⟨hi, hget⟩
  -- the sibling is behind at even positions and before at odd ones; only the last child may have none in the list
  obtain ⟨k, rfl | rfl⟩ : ∃ k, i = 2 * k ∨ i = 2 * k + 1 := ⟨i / 2, by omega⟩
  · by_cases hnext : 2 * k + 1 < children.length
    · exact ⟨children[2 * k + 1], Or.inl (h.pair k _ _ hc (List.getElem?_eq_getElem hnext))⟩
    · have hlength := h.length_eq
      exact h.last k c (by omega) hc
  · have hbefore : 2 * k < children.length := by omega
    exact ⟨children[2 * k], Or.inr (h.pair k _ _ (List.getElem?_eq_getElem hbefore) hc)⟩

/-! ## Copies -/

/-- Individuals without rules of their own for mutation and crossover. -/
structure Copies (C : Type) [Chromosome C] : Prop where
  mutate : ∀ c : C, Chromosome.mutate c = (pure c : Draw C)
  crossover : ∀ c d : C, Chromosome.crossover c d = (pure (c, d) : Draw (C × C))

theorem Born.eq (hcopies : Copies C) (h : Born p q c d) : c = p ∧ d = q := by
  rcases h with h | h
  · exact Prod.mk.inj h
  · rw [hcopies.crossover] at h
    exact Prod.mk.inj h.of_pure.symm

theorem Grown.eq (hcopies : Copies C) (h : Grown child c) : c = child := by
  rcases h with h | h
  · exact h
  · rw [hcopies.mutate] at h
    exact h.of_pure.symm

theorem Siblings.mem (hcopies : Copies C) (h : Siblings population c d) : c ∈ population ∧ d ∈ population := by
  obtain ⟨p, hp, q, hq, c₀, d₀, hborn, hc, hd⟩ := h
  obtain ⟨rfl, rfl⟩ := hborn.eq hcopies
  rw [hc.eq hcopies, hd.eq hcopies]
  exact ⟨hp, hq⟩

theorem Bred.mem (hcopies : Copies C) (h : Bred population size children) (hc : c ∈ children) : c ∈ population := by
  obtain ⟨d, hd | hd⟩ := h.exists_sibling hc
  · exact (hd.mem hcopies).1
  · exact (hd.mem hcopies).2

/-! ## Offspring -/

theorem bred_of_offspring (h : Gives (b.offspring population size) children) : Bred population size children := by
  obtain ⟨-, -, h⟩ := h.of_bind
  exact bred_of_children h

theorem offspring_eq_error (h : ¬ size * individualBytes C < wordBound / 2) (source : Source) :
    b.offspring population size source = .error .capacity := by
  unfold offspring
  rw [reserve_eq_error h]
  rfl

/-- As long as there is room for them, the children asked for are bred from every stream of words and from every
keystream, if mutation and crossover come to an end there; all that can be bred is bred in pairs, and copied if
individuals have no rules of their own. Without room breeding fails before it takes a word. -/
theorem offspring_bred (b : Breeder) (population : List C) (size : Nat) (hpopulation : 2 ≤ population.length)
    (hcrossed : within 0 1 b.crossoverRate = true) (hmutated : within 0 1 b.mutationRate = true) :
    (size * individualBytes C < wordBound / 2 →
      ((∀ c d : C, Settles (Chromosome.crossover c d)) → (∀ c : C, Settles (Chromosome.mutate c)) →
        Settles (b.offspring population size)) ∧
      ((∀ c d : C, Answers (Chromosome.crossover c d)) → (∀ c : C, Answers (Chromosome.mutate c)) →
        Answers (b.offspring population size))) ∧
    (∀ children, Gives (b.offspring population size) children →
      Bred population size children ∧ (Copies C → ∀ c ∈ children, c ∈ population)) ∧
    (¬ size * individualBytes C < wordBound / 2 →
      ∀ source, b.offspring population size source = .error .capacity) := by
  refine ⟨fun hroom => ⟨fun hcrossover hmutate => ?_, fun hcrossover hmutate => ?_⟩, fun children h => ?_,
    offspring_eq_error⟩
  · exact inherits_offspring inherits_settles hcrossed hmutated hcrossover hmutate hpopulation (reserve_eq_ok hroom)
  · exact inherits_offspring inherits_answers hcrossed hmutated hcrossover hmutate hpopulation (reserve_eq_ok hroom)
  · exact ⟨bred_of_offspring h, fun hcopies c hc => (bred_of_offspring h).mem hcopies hc⟩

def casePair : List Case := [⟨1, 1, []⟩, ⟨2, 5, []⟩]

def programPair : List Program := [{ opcodes := [0] }, { opcodes := [1] }]

/-- Words enough for two pairs of cases and a toss: for each pair two parents, and whether to cross them. -/
def sevenWords : Source := .ofWords [0xF000000000000000, 0, 0x1000, 0, 0xF000000000000000, 0, 0xF000000000000000]

/-- Three children: of cases, the copies of a pair and one of a second pair, and of programs from any words. -/
theorem offspring_bred_threeChildren :
    (2 ≤ casePair.length ∧ 2 ≤ programPair.length ∧ 3 * individualBytes Case < wordBound / 2 ∧
      3 * individualBytes Program < wordBound / 2 ∧ within 0 1 (default : Breeder).crossoverRate = true ∧
      within 0 1 (default : Breeder).mutationRate = true) ∧
    Settles ((default : Breeder).offspring programPair 3) ∧ Answers ((default : Breeder).offspring programPair 3) ∧
    Settles ((default : Breeder).offspring casePair 3) ∧
    ∃ children, Gives ((default : Breeder).offspring casePair 3) children ∧ children.map Case.id = [2, 1, 2] ∧
      Bred casePair 3 children ∧ ∀ c ∈ children, c ∈ casePair := by
  have hcopies : Copies Case := ⟨fun _ => rfl, fun _ _ => rfl⟩
  have hrates : within 0 1 (default : Breeder).crossoverRate = true ∧
      within 0 1 (default : Breeder).mutationRate = true := by decide +kernel
  have hrun : (((default : Breeder).offspring casePair 3) sevenWords).toOption.map (·.1.map Case.id) =
      some [2, 1, 2] := by decide +kernel
  have hprograms := (offspring_bred default programPair 3 (by decide) hrates.1 hrates.2).1 (by decide)
  obtain ⟨hcases, hbred, -⟩ := offspring_bred default casePair 3 (by decide) hrates.1 hrates.2
  obtain ⟨⟨children, source⟩, hrun, hids⟩ := Option.map_eq_some_iff.1 hrun
  have hgives : Gives ((default : Breeder).offspring casePair 3) children :=
    ⟨sevenWords, source, toOption_eq_some.1 hrun⟩
  exact ⟨⟨by decide, by decide, by decide, by decide, hrates⟩,
    hprograms.1 (Program.inherits_crossover inherits_settles) (Program.inherits_mutate inherits_settles),
    hprograms.2 (Program.inherits_crossover inherits_answers) (Program.inherits_mutate inherits_answers),
    (hcases (by decide)).1 (fun _ _ => .pure _) (fun _ => .pure _),
    children, hgives, hids, (hbred children hgives).1, (hbred children hgives).2 hcopies⟩

/-- A list of `2 ^ 62` children does not fit into the address space. -/
theorem not_gives_beyondRoom :
    2 ≤ programPair.length ∧ within 0 1 (default : Breeder).crossoverRate = true ∧
      within 0 1 (default : Breeder).mutationRate = true ∧
      (∀ p q : Program, Answers (Chromosome.crossover p q)) ∧ (∀ p : Program, Answers (Chromosome.mutate p)) ∧
      ¬ ∃ children source,
        (default : Breeder).offspring programPair 4611686018427387904 (.ofSeed 1) = .ok (children, source) := by
  have hrates : within 0 1 (default : Breeder).crossoverRate = true ∧
      within 0 1 (default : Breeder).mutationRate = true := by decide +kernel
  refine ⟨by decide, hrates.1, hrates.2, Program.inherits_crossover inherits_answers,
    Program.inherits_mutate inherits_answers, ?_⟩
  rintro ⟨children, source, h⟩
  rw [offspring_eq_error (by decide)] at h
  cases h

end Breeder

end CoverSearch
