import CoverSearch.Program
import CoverSearch.Proofs.Ranking.Elite
import CoverSearch.Proofs.Ranking.Evaluation
import CoverSearch.Proofs.Search.Population

/-!
# Elitism

A generation ranks the population and its offspring together. As long as no more ranked objectives are out of reach of
all of them than there are places in the population, one of the individuals closest to each such objective survives, so
that for none of them the best fitness gets worse.

* `Search.mem_of_isBestOf` : who is at a survivor position survives;
* `Search.Elitist` : what a generation keeps; `Search.Generation.elitist` : every generation does;
* `Search.reaches_elitist` : the result for every run.
-/

namespace CoverSearch.Search

variable {σ C : Type} {s : Search σ C} {policy : Policy} {state : σ} {p q : Progress σ C}
  {objectives : Array (Objective C)} {active : List Nat} {population batch next : List C} {size i : Nat} {c : C}

/-- What a generation keeps of a population and an executed batch, ranked together on the active objectives, if the
unreached ones among these are no more than it keeps individuals. -/
structure Elitist (objectives : Array (Objective C)) (active : List Nat) (size : Nat) (population batch next : List C) :
    Prop where
  /-- One of the closest individuals to each unreached objective survives. -/
  exists_closest : active.countP (unreached objectives (population ++ batch)) ≤ size →
    ∀ t ∈ active, ∀ o, objectives[t]? = some o → unreached objectives (population ++ batch) t = true →
      ∃ c ∈ next, IsClosest o (population ++ batch) c
  /-- The best fitness for an objective that nobody covers, or brings below zero, does not get worse. -/
  exists_not_worse : active.countP (unreached objectives (population ++ batch)) ≤ size →
    ∀ t ∈ active, ∀ o, objectives[t]? = some o →
      (∀ c ∈ population ++ batch, (o.fitness c == 0) = false ∧ ¬ o.fitness c < 0) →
        ∃ c ∈ next, ∀ d ∈ population, o.fitness c ≤ o.fitness d

/-! ## One generation -/

theorem mem_of_isBestOf {m : Matrix} (hbest : IsBestOf objectives active size population next)
    (hm : Matrix.evaluate population objectives active = .ok m) (hi : i ∈ survivors pareto m size)
    (hc : population[i]? = some c) : c ∈ next := by
  obtain ⟨m', hm', -, htaken⟩ := hbest
  obtain rfl := Except.ok.inj (hm.symm.trans hm')
  have hmem : some c ∈ next.map some := by
    rw [htaken, ← hc]
    exact List.mem_map_of_mem hi
  exact (List.mem_map_of_injective (Option.some_injective C)).1 hmem

/-- A closest individual to an unreached objective survives. -/
theorem exists_closest_of_survive (hfitness : ∀ o ∈ objectives, o.NaNFree)
    (h : survive objectives active size population = .ok next) (hsize : size ≤ population.length)
    (hroom : active.countP (unreached objectives population) ≤ size) {t : Nat} (ht : t ∈ active) {o : Objective C}
    (ho : objectives[t]? = some o) (hopen : unreached objectives population t = true) :
    ∃ c ∈ next, IsClosest o population c := by
  obtain ⟨m, hm, -⟩ := bind_eq_ok.1 h
  have hnan := Matrix.nanFree_of_evaluate hfitness hm
  have hevaluates := Matrix.evaluates_of_evaluate hm
  -- there is room for one, so there is one
  have hcount : 0 < active.countP (unreached objectives population) := List.countP_pos_iff.2 ⟨t, ht, hopen⟩
  have hne : population ≠ [] := List.ne_nil_of_length_pos (by omega)
  have hpos : 0 < m.size := by rw [hevaluates.size_eq]; omega
  have hobjectives : ∀ u ∈ active, ∃ o, objectives[u]? = some o := fun u hu =>
    Matrix.exists_objective_of_evaluate hm hne hu
  obtain ⟨k, hk⟩ := List.mem_iff_getElem?.1 ht
  have hcolumn := (hevaluates.mem_uncoveredColumns hnan hpos hobjectives hk).2 hopen
  rw [← hevaluates.length_uncoveredColumns hnan hpos hobjectives] at hroom
  obtain ⟨b, hb, hleast⟩ := exists_survivor_least hnan hpos hroom hcolumn
  obtain ⟨c, hc⟩ : ∃ c, population[b]? = some c :=
    ⟨_, List.getElem?_eq_getElem (hevaluates.size_eq ▸ lt_of_mem_survivors hnan hb)⟩
  exact ⟨c, mem_of_isBestOf (isBestOf_of_survive hfitness h).1 hm hb hc, hevaluates.isClosest hnan hk ho hc hleast⟩

variable [Chromosome C]

theorem Generation.elitist (hfitness : ∀ o ∈ s.objectives, o.NaNFree) (h : s.Generation p batch q)
    (hsize : s.config.populationSize ≤ (p.population ++ batch).length) :
    Elitist s.objectives q.active s.config.populationSize p.population batch q.population where
  exists_closest := fun hroom _ ht _ ho hopen =>
    exists_closest_of_survive hfitness h.survive_eq hsize hroom ht ho hopen
  exists_not_worse := by
    intro hroom t ht o ho hnobody
    have hopen : unreached s.objectives (p.population ++ batch) t = true := by
      refine (unreached_iff ho).2 fun c hc hle => ?_
      exact (hnobody c hc).2 (Double.lt_of_le_of_beq_eq_false hle (hnobody c hc).1)
    obtain ⟨c, hc, -, hclosest⟩ := exists_closest_of_survive hfitness h.survive_eq hsize hroom ht ho hopen
    exact ⟨c, hc, fun d hd => hclosest d (List.mem_append_left batch hd)⟩

/-! ## Main statement -/

/-- A search with no NaN among its fitness values, whatever policy chooses the ranked objectives. In the initial
survival and in every later one, as long as at most as many ranked objectives as the population is to have individuals
stay above zero for all that are ranked, one of the closest individuals to each of these survives; so the best fitness
of the population for a ranked objective that is not covered does not get worse by a generation. -/
theorem reaches_elitist (s : Search σ C) (policy : Policy) (state : σ) (hfitness : ∀ o ∈ s.objectives, o.NaNFree) :
    (∀ r, s.evolve policy state = .ok r → ∃ g p stop, s.Reaches policy state g p ∧ r = result p g stop) ∧
    (∀ q, s.start policy state = .ok q → ∃ fresh state₁ source₁,
      s.collaborators.generateMany s.config.populationSize state s.source =
        .ok ((fresh, state₁), source₁) ∧
      Elitist s.objectives q.active s.config.populationSize [] (s.collaborators.execute fresh state₁).1 q.population) ∧
    ∀ g p q, s.Reaches policy state g p → s.step (g + 1) p = .ok q → ∃ offspring state₁ source₁,
      s.collaborators.offspring p.population s.config.populationSize p.state p.source =
        .ok ((offspring, state₁), source₁) ∧
      Elitist s.objectives q.active s.config.populationSize p.population (s.collaborators.execute offspring state₁).1
        q.population := by
  refine ⟨fun r hr => exists_reaches_of_evolve hr, fun q hq => ?_, fun g p q hp hq => ?_⟩
  · obtain ⟨policy₀, active₀, fresh, state₁, source₁, -, hfresh, hgeneration⟩ := generation_of_start hq
    refine ⟨fresh, state₁, source₁, hfresh, hgeneration.elitist hfitness ?_⟩
    rw [blank, List.nil_append, s.collaborators.length_execute, length_generateMany hfresh]
  · obtain ⟨offspring, state₁, source₁, hoffspring, hgeneration⟩ := generation_of_step hq
    refine ⟨offspring, state₁, source₁, hoffspring, hgeneration.elitist hfitness ?_⟩
    rw [List.length_append, hp.length_population hfitness]
    exact Nat.le_add_right _ _

/-- At most two wanted opcodes are a fitness of zero, one or two. -/
theorem zero_le_fitness_hold {wanted : List Nat} (h : wanted.length ≤ 2) (c : Program) :
    0 ≤ (Goal.hold wanted).objective.fitness c := by
  have hmissing : c.missing wanted ≤ 2 := List.countP_le_length.trans h
  show 0 ≤ Float.ofNat (c.missing wanted)
  obtain h | h | h : c.missing wanted = 0 ∨ c.missing wanted = 1 ∨ c.missing wanted = 2 := by omega
  all_goals
    rw [h]
    decide +kernel

/-- Programs run by a machine without rules. -/
def runAll (population : List Program) (state : Unit) : List Program × Unit :=
  (population.map (Machine.execute {}), state)

theorem length_runAll (population : List Program) (state : Unit) :
    (runAll population state).1.length = population.length := List.length_map _

/-- A search for programs with the opcodes `1` and `2`, and for others with `3`; there are offspring for both, but
neither is complete. -/
def halfway : Search Unit Program where
  objectives := #[(Goal.hold [1, 2]).objective, (Goal.hold [3]).objective]
  collaborators :=
    { generate := pure { opcodes := [0] }
      offspring := fun _ _ => pure [{ opcodes := [3] }, { opcodes := [0, 1] }]
      execute := runAll
      length_execute := length_runAll }
  config := { populationSize := 2 }

theorem halfway_nanFree : ∀ o ∈ halfway.objectives, o.NaNFree := by
  intro o ho c
  have hwanted : o = (Goal.hold [1, 2]).objective ∨ o = (Goal.hold [3]).objective := by simpa [halfway] using ho
  rcases hwanted with rfl | rfl
  · exact Double.isNaN_of_le_right (zero_le_fitness_hold (by decide) c)
  · exact Double.isNaN_of_le_right (zero_le_fitness_hold (by decide) c)

/-- What the offspring are once they have been executed. -/
def halfwayBatch : List Program := [{ opcodes := [3] }, { opcodes := [0, 1] }]

/-- The second objective is covered, so only for the first one a closest program has to survive. -/
theorem reaches_elitist_halfway : (∀ o ∈ halfway.objectives, o.NaNFree) ∧
    ∃ p q, halfway.Reaches .all () 0 p ∧ halfway.step 1 p = .ok q ∧ q.active = [0, 1] ∧
      unreached halfway.objectives (p.population ++ halfwayBatch) 0 = true ∧
      unreached halfway.objectives (p.population ++ halfwayBatch) 1 = false ∧
      ∃ c ∈ q.population, IsClosest (Goal.hold [1, 2]).objective (p.population ++ halfwayBatch) c := by
  have hrun : ((halfway.start .all ()).toOption.bind fun p => (halfway.step 1 p).toOption.map fun q =>
      (q.active, unreached halfway.objectives (p.population ++ halfwayBatch) 0,
        unreached halfway.objectives (p.population ++ halfwayBatch) 1)) = some ([0, 1], true, false) := by
    decide +kernel
  obtain ⟨p, hp, hrun⟩ := Option.bind_eq_some_iff.1 hrun
  obtain ⟨q, hq, hrun⟩ := Option.map_eq_some_iff.1 hrun
  rw [toOption_eq_some] at hp hq
  obtain ⟨hactive, hunreached⟩ := Prod.mk.inj hrun
  obtain ⟨hfirst, hsecond⟩ := Prod.mk.inj hunreached
  obtain ⟨-, -, hgenerations⟩ := reaches_elitist halfway .all () halfway_nanFree
  obtain ⟨offspring, state₁, source₁, hoffspring, helitist⟩ := hgenerations 0 p q (.start hp) hq
  obtain ⟨rfl, -⟩ := Prod.mk.inj (Prod.mk.inj (Except.ok.inj hoffspring)).1
  have hroom : q.active.countP (unreached halfway.objectives (p.population ++ halfwayBatch)) ≤ 2 := by
    rw [hactive]
    exact List.countP_le_length
  exact ⟨halfway_nanFree, p, q, .start hp, hq, hactive, hfirst, hsecond,
    helitist.exists_closest hroom 0 (hactive ▸ List.mem_cons_self) _ rfl hfirst⟩

end CoverSearch.Search
