import CoverSearch.Proofs.Search.Elitism

/-!
# What is ranked on a frontier

The frontier looks for a fitness of zero, the sorting for a least fitness above zero. Where no fitness is negative they
agree: an objective that the ranked individuals cover is not active when they are ranked, so every column of their
matrix is uncovered, and the first front holds a closest individual to each active objective.

* `Search.RanksOpen` : a ranking without covered objectives, and `Search.ranksOpen_of_uncovered` when it is one;
* `Search.Ranks` : the rankings of a run; `Search.Reaches.exists_ranks` : each progress has survived one;
* `Search.Ranks.uncovered` : what is ranked on a frontier has no covered objective;
* `Search.dynaMosa_ranksOpen` : the result for every run.
-/

namespace CoverSearch.Search

variable {σ C : Type} {s : Search σ C} {state : σ} {p q : Progress σ C} {objectives : Array (Objective C)}
  {active : List Nat} {ranked batch : List C} {f : Frontier}

/-- A ranking on active objectives of which none is covered. -/
structure RanksOpen (objectives : Array (Objective C)) (active : List Nat) (ranked : List C) : Prop where
  uncovered : ∀ t ∈ active, ∃ o, objectives[t]? = some o ∧ ∀ c ∈ ranked, o.covers c = false
  sorting : ∃ m, Matrix.evaluate ranked objectives active = .ok m ∧
    (preferenceSort pareto m).uncovered = List.range active.length ∧
    (active ≠ [] → ∃ first rest, (preferenceSort pareto m).fronts = first :: rest ∧
      ∀ t ∈ active, ∀ o, objectives[t]? = some o → ∃ b ∈ first, ∃ c, ranked[b]? = some c ∧ IsClosest o ranked c)

/-! ## One ranking -/

/-- An objective that nobody covers is above zero for all. -/
theorem unreached_of_uncovered {t : Nat} {o : Objective C} (hfitness : ∀ c, 0 ≤ o.fitness c)
    (hcovers : ∀ c, o.covers c = (o.fitness c == 0)) (ho : objectives[t]? = some o)
    (huncovered : ∀ c ∈ ranked, o.covers c = false) : unreached objectives ranked t = true := by
  refine (unreached_iff ho).2 fun c hc hle => ?_
  have hne : (0 == o.fitness c) = false := by rw [Double.beq_comm, ← hcovers c, huncovered c hc]
  have hpos := Double.lt_of_le_of_beq_eq_false (hfitness c) hne
  exact (Double.le_iff_not_lt (Double.isNaN_of_le_right (hfitness c)) Double.isNaN_zero).1 hle hpos

theorem ranksOpen_of_uncovered (hfitness : ∀ o ∈ objectives, ∀ c, 0 ≤ o.fitness c)
    (hcovers : ∀ o ∈ objectives, ∀ c, o.covers c = (o.fitness c == 0)) (hne : ranked ≠ [])
    (huncovered : ∀ t ∈ active, ∃ o, objectives[t]? = some o ∧ ∀ c ∈ ranked, o.covers c = false) :
    RanksOpen objectives active ranked := by
  have hobjectives : ∀ t ∈ active, ∃ o, objectives[t]? = some o := fun t ht =>
    (huncovered t ht).imp fun _ h => h.1
  obtain ⟨m, hm⟩ := Matrix.exists_evaluate ranked fun t ht =>
    (Array.getElem?_eq_some_iff.1 (hobjectives t ht).choose_spec).1
  have hnan := Matrix.nanFree_of_evaluate (fun o ho c => Double.isNaN_of_le_right (hfitness o ho c)) hm
  have hevaluates := Matrix.evaluates_of_evaluate hm
  have hpos : 0 < m.size := hevaluates.size_eq ▸ List.length_pos_of_ne_nil hne
  have hunreached : ∀ t ∈ active, unreached objectives ranked t = true := by
    intro t ht
    obtain ⟨o, ho, hnobody⟩ := huncovered t ht
    have hmem := Array.mem_of_getElem? ho
    exact unreached_of_uncovered (hfitness o hmem) (hcovers o hmem) ho hnobody
  have hcolumns : uncoveredColumns m = List.range active.length := by
    rw [hevaluates.uncoveredColumns_eq hnan hpos hobjectives, List.filter_eq_self]
    intro k hk
    rw [List.getD_eq_getElem _ _ (List.mem_range.1 hk)]
    exact hunreached _ (List.getElem_mem _)
  refine ⟨huncovered, m, hm, (uncovered_of_pos pareto hpos).trans hcolumns, fun hactive => ?_⟩
  have hsome : uncoveredColumns m ≠ [] := by
    rwa [hcolumns, ne_eq, List.range_eq_nil, List.length_eq_zero_iff]
  obtain ⟨rest, hfronts⟩ := fronts_of_uncovered pareto hpos hsome
  refine ⟨preferred m, rest, hfronts, fun t ht o ho => ?_⟩
  -- the row that the column of `t` has chosen
  obtain ⟨k, hk⟩ := List.mem_iff_getElem?.1 ht
  have hcolumn := (hevaluates.mem_uncoveredColumns hnan hpos hobjectives hk).2 (hunreached t ht)
  obtain ⟨hlt, hleast, -⟩ := bestRow_isFirstLeast hnan hpos k
  obtain ⟨c, hc⟩ : ∃ c, ranked[bestRow m k]? = some c := ⟨_, List.getElem?_eq_getElem (hevaluates.size_eq ▸ hlt)⟩
  exact ⟨bestRow m k, bestRow_mem_preferred hcolumn, c, hc, hevaluates.isClosest hnan hk ho hc hleast⟩

variable [Chromosome C]

/-! ## The rankings of a run -/

/-- The ranked objectives and the individuals that are ranked on them, for the initial population of a run and for a
generation that follows on what the run reaches. -/
inductive Ranks (s : Search σ C) (policy : Policy) (state : σ) : List Nat → List C → Prop
  | start {policy₀ policy₁ : Policy} {active₀ active fresh state₁ source₁ added} :
      s.collaborators.generateMany s.config.populationSize state s.source =
        .ok ((fresh, state₁), source₁) →
      policy.initial s.objectives.size = .ok (policy₀, active₀) →
      policy₀.update s.objectives (s.collaborators.execute fresh state₁).1 active₀ = .ok (policy₁, active, added) →
      Ranks s policy state active (s.collaborators.execute fresh state₁).1
  | step {g : Nat} {p : Progress σ C} {policy₁ : Policy} {active offspring state₁ source₁ added} :
      s.Reaches policy state g p →
      s.collaborators.offspring p.population s.config.populationSize p.state p.source =
        .ok ((offspring, state₁), source₁) →
      p.policy.update s.objectives (p.population ++ (s.collaborators.execute offspring state₁).1) p.active =
        .ok (policy₁, active, added) →
      Ranks s policy state active (p.population ++ (s.collaborators.execute offspring state₁).1)

/-- What a run reaches has survived a ranking on its active objectives. -/
theorem Reaches.exists_ranks {policy : Policy} {g : Nat} (h : s.Reaches policy state g p) :
    ∃ ranked, s.Ranks policy state p.active ranked ∧
      survive s.objectives p.active s.config.populationSize ranked = .ok p.population := by
  cases h with
  | start h =>
    obtain ⟨policy₀, active₀, fresh, state₁, source₁, hinitial, hfresh, hgeneration⟩ := generation_of_start h
    obtain ⟨added, hupdate⟩ := hgeneration.update_eq
    exact ⟨_, .start hfresh hinitial hupdate, hgeneration.survive_eq⟩
  | step hreaches _ _ h =>
    obtain ⟨offspring, state₁, source₁, hoffspring, hgeneration⟩ := generation_of_step h
    obtain ⟨added, hupdate⟩ := hgeneration.update_eq
    exact ⟨_, .step hreaches hoffspring hupdate, hgeneration.survive_eq⟩

theorem Reaches.exists_dynamic {g : Nat} (h : s.Reaches (.dynamic f) state g p) : ∃ f', p.policy = .dynamic f' := by
  refine h.invariant (P := fun p => ∃ f', p.policy = .dynamic f') ?_ ?_
  · intro policy₀ active₀ hinitial
    obtain ⟨f', rfl, -⟩ := Policy.exists_of_initial_dynamic hinitial
    exact ⟨f', rfl⟩
  · rintro p batch q ⟨f', hpolicy⟩ hgeneration
    obtain ⟨added, hupdate⟩ := hgeneration.update_eq
    rw [hpolicy] at hupdate
    obtain ⟨f'', hpolicy', -⟩ := Policy.exists_of_update_dynamic hupdate
    exact ⟨f'', hpolicy'⟩

/-- A frontier that is moved leaves nothing active that the ranked individuals cover. -/
theorem Ranks.uncovered (h : s.Ranks (.dynamic f) state active ranked) :
    ∀ t ∈ active, ∃ o, s.objectives[t]? = some o ∧ ∀ c ∈ ranked, o.covers c = false := by
  have hmoved : ∃ f₀ active₀ policy₁ added,
      (Policy.dynamic f₀).update s.objectives ranked active₀ = .ok (policy₁, active, added) := by
    cases h with
    | start _ hinitial hupdate =>
      obtain ⟨f₀, rfl, -⟩ := Policy.exists_of_initial_dynamic hinitial
      exact ⟨f₀, _, _, _, hupdate⟩
    | step hreaches _ hupdate =>
      obtain ⟨f₀, hpolicy⟩ := hreaches.exists_dynamic
      exact ⟨f₀, _, _, _, hpolicy ▸ hupdate⟩
  obtain ⟨f₀, active₀, policy₁, added, hupdate⟩ := hmoved
  obtain ⟨f₁, -, hupdate⟩ := Policy.exists_of_update_dynamic hupdate
  exact fun t ht => exists_of_coveredBy_false (Frontier.uncovered_update hupdate t ht)

theorem Ranks.ne_nil {policy : Policy} (hfitness : ∀ o ∈ s.objectives, o.NaNFree) (hsize : 0 < s.config.populationSize)
    (h : s.Ranks policy state active ranked) : ranked ≠ [] := by
  apply List.ne_nil_of_length_pos
  cases h with
  | start hfresh _ _ => rwa [s.collaborators.length_execute, length_generateMany hfresh]
  | step hreaches _ _ =>
    rw [List.length_append, hreaches.length_population hfitness]
    omega

/-! ## Main statement -/

/-- A search on a frontier whose objectives are covered by a fitness of zero, no fitness being less. What such a run
reaches is what is left of a ranking, and at every ranking the frontier has dropped all that the ranked individuals
cover: the sorting reports each column of the active objectives as uncovered, and if there is one, the first front
holds an individual closest to each active objective. -/
theorem dynaMosa_ranksOpen (s : Search σ C) (f : Frontier) (state : σ) (hconfig : s.config.validate = .ok ())
    (hfitness : ∀ o ∈ s.objectives, ∀ c, 0 ≤ o.fitness c)
    (hcovers : ∀ o ∈ s.objectives, ∀ c, o.covers c = (o.fitness c == 0)) :
    (∀ r, s.dynaMosa f state = .ok r → ∃ g p stop, s.Reaches (.dynamic f) state g p ∧ r = result p g stop) ∧
    (∀ g p, s.Reaches (.dynamic f) state g p → ∃ ranked, s.Ranks (.dynamic f) state p.active ranked ∧
      survive s.objectives p.active s.config.populationSize ranked = .ok p.population) ∧
    ∀ active ranked, s.Ranks (.dynamic f) state active ranked → RanksOpen s.objectives active ranked := by
  refine ⟨fun r hr => exists_reaches_of_evolve hr, fun g p hp => hp.exists_ranks, fun active ranked h => ?_⟩
  have hsize := two_le_populationSize hconfig
  have hnan : ∀ o ∈ s.objectives, o.NaNFree := fun o ho c => Double.isNaN_of_le_right (hfitness o ho c)
  exact ranksOpen_of_uncovered hfitness hcovers (h.ne_nil hnan (by omega)) h.uncovered

/-- A search for programs with the opcode `1`, and once there is one, with `2`. -/
def oneThenTwo : Search Unit Program where
  objectives := #[(Goal.hold [1]).objective, (Goal.hold [2]).objective]
  collaborators :=
    { generate := pure { opcodes := [1] }
      offspring := fun population _ => pure population
      execute := runAll
      length_execute := length_runAll }
  config := { populationSize := 2 }

/-- Both fresh programs have the opcode `1`, so only the second objective is ranked. -/
theorem dynaMosa_ranksOpen_oneThenTwo : oneThenTwo.config.validate = .ok () ∧
    (∀ o ∈ oneThenTwo.objectives, ∀ c, 0 ≤ o.fitness c) ∧
    (∀ o ∈ oneThenTwo.objectives, ∀ c, o.covers c = (o.fitness c == 0)) ∧
    oneThenTwo.Ranks (.dynamic (.new [0] #[[1], []])) () [1] [{ opcodes := [1] }, { opcodes := [1] }] ∧
    RanksOpen oneThenTwo.objectives [1] [{ opcodes := [1] }, { opcodes := [1] }] := by
  have hvalid : oneThenTwo.config.validate = .ok () := by
    rw [← toOption_eq_some]
    decide +kernel
  have hobjectives : ∀ o ∈ oneThenTwo.objectives, ∃ opcode, o = (Goal.hold [opcode]).objective := by
    intro o ho
    have ho : o = (Goal.hold [1]).objective ∨ o = (Goal.hold [2]).objective := by simpa [oneThenTwo] using ho
    exact ho.elim (fun h => ⟨1, h⟩) fun h => ⟨2, h⟩
  have hfitness : ∀ o ∈ oneThenTwo.objectives, ∀ c, 0 ≤ o.fitness c := by
    intro o ho c
    obtain ⟨opcode, rfl⟩ := hobjectives o ho
    exact zero_le_fitness_hold (by simp) c
  have hcovers : ∀ o ∈ oneThenTwo.objectives, ∀ c, o.covers c = (o.fitness c == 0) := by
    intro o ho c
    obtain ⟨opcode, rfl⟩ := hobjectives o ho
    rfl
  have hranks : oneThenTwo.Ranks (.dynamic (.new [0] #[[1], []])) () [1] [{ opcodes := [1] }, { opcodes := [1] }] := by
    -- the frontier leaves the first objective for the second
    have hfirst : coveredBy oneThenTwo.objectives [{ opcodes := [1] }, { opcodes := [1] }] 0 = .ok true :=
      congrArg Except.ok (by decide +kernel)
    have hsecond : coveredBy oneThenTwo.objectives [{ opcodes := [1] }, { opcodes := [1] }] 1 = .ok false :=
      congrArg Except.ok (by decide +kernel)
    have hmove : Frontier.update ⟨[0], #[[1], []], #[true, false]⟩
        (coveredBy oneThenTwo.objectives [{ opcodes := [1] }, { opcodes := [1] }]) [0] =
          .ok (⟨[0], #[[1], []], #[true, true]⟩, [1], 1) := by
      simp [Frontier.update, Frontier.passAll, Frontier.pass, Frontier.expand, hfirst, hsecond, bind, Except.bind,
        pure, Except.pure]
    show oneThenTwo.Ranks _ () [1] (runAll [{ opcodes := [1] }, { opcodes := [1] }] ()).1
    exact .start (s := oneThenTwo) rfl rfl (bind_eq_ok.2 ⟨_, hmove, rfl⟩)
  obtain ⟨-, -, hopen⟩ := dynaMosa_ranksOpen oneThenTwo (.new [0] #[[1], []]) () hvalid hfitness hcovers
  exact ⟨hvalid, hfitness, hcovers, hranks, hopen _ _ hranks⟩

end CoverSearch.Search
