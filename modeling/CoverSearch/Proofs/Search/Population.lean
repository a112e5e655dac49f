import CoverSearch.Program
import CoverSearch.Proofs.Frontier.Update
import CoverSearch.Proofs.Ranking.Survivors
import CoverSearch.Proofs.Search.Run

/-!
# The population of a search

Survivors are taken out of their slots, and an empty slot would be skipped without notice. But survivors of a matrix of
numbers are distinct rows, so no slot is asked twice, and every generation has at least as many individuals as it keeps.
Hence the population has the configured size after the initial survival and after every later one, however many
offspring there are, and offspring are asked of populations of this size only.

* `Matrix.of_evaluate`, `Matrix.exists_evaluate` : the matrix of a population, and when there is one;
* `Search.map_takeOut` : what is taken out of distinct full slots;
* `Search.IsBestOf` : the individuals at the survivor positions; `Search.isBestOf_of_survive` : survival yields them;
* `Search.Reaches.length_population` : the step and the run;
* `Search.evolve_withOffspring` : other offspring of populations of another size make no difference;
* `Search.reaches_populationSize` : the result for every run.
-/

namespace CoverSearch

/-- No fitness is a NaN. -/
def Objective.NaNFree {C : Type} (o : Objective C) : Prop := ∀ c, (o.fitness c).isNaN = false

/-! ## Matrices of a population -/

namespace Matrix

variable {C : Type} {objectives : Array (Objective C)} {active : List Nat} {population : List C} {m : Matrix}

/-- A row for each individual, and nothing but fitness values. -/
theorem of_evaluate (h : evaluate population objectives active = .ok m) : m.size = population.length ∧
    ∀ r ∈ m.rows, ∀ x ∈ r, ∃ o ∈ objectives, ∃ c, x = o.fitness c := by
  rw [evaluate] at h
  split at h <;> rename_i hempty
  · obtain rfl := Except.ok.inj h
    rw [List.isEmpty_iff.1 hempty]
    exact ⟨rfl, fun r hr => absurd hr (Array.not_mem_empty r)⟩
  · split at h <;> rename_i hranked
    · exact nomatch h
    · obtain rfl := Except.ok.inj h
      refine ⟨by simp [size], fun r hr x hx => ?_⟩
      obtain ⟨c, -, rfl⟩ := List.mem_map.1 (List.mem_toArray.1 hr)
      obtain ⟨o, ho, rfl⟩ := List.mem_map.1 (List.mem_toArray.1 hx)
      obtain ⟨i, hi⟩ := List.mem_iff_getElem?.1 ho
      rw [getElem?_of_mapM_eq_some hranked, Option.bind_eq_some_iff] at hi
      obtain ⟨t, -, hto⟩ := hi
      exact ⟨o, Array.mem_of_getElem? hto, c, rfl⟩

theorem nanFree_of_evaluate (hfitness : ∀ o ∈ objectives, o.NaNFree)
    (h : evaluate population objectives active = .ok m) : m.NaNFree := by
  intro r hr x hx
  obtain ⟨o, ho, c, rfl⟩ := (of_evaluate h).2 r hr x hx
  exact hfitness o ho c

theorem exists_evaluate (population : List C) (h : ∀ t ∈ active, t < objectives.size) :
    ∃ m, evaluate population objectives active = .ok m := by
  have hpresent : ∃ ranked, active.mapM (fun t => objectives[t]?) = some ranked :=
    exists_mapM_eq_some.2 fun t ht => ⟨_, Array.getElem?_eq_getElem (h t ht)⟩
  obtain ⟨ranked, hranked⟩ := hpresent
  rw [evaluate]
  split
  · exact ⟨_, rfl⟩
  · split <;> rename_i h'
    · exact nomatch hranked.symm.trans h'
    · exact ⟨_, rfl⟩

end Matrix

namespace Search

variable {σ C : Type} {s : Search σ C} {policy : Policy} {state state' : σ} {p q : Progress σ C}
  {objectives : Array (Objective C)} {active : List Nat} {population next fresh batch : List C}
  {source source' : Source} {size g n : Nat}

/-! ## One survival -/

/-- `next` holds the individuals at the survivor positions of a ranked population, and each position is used once. -/
def IsBestOf (objectives : Array (Objective C)) (active : List Nat) (size : Nat) (population next : List C) : Prop :=
  ∃ m, Matrix.evaluate population objectives active = .ok m ∧ (survivors pareto m size).Nodup ∧
    next.map some = (survivors pareto m size).map fun i => population[i]?

/-- What is taken out of full slots, each asked once, is what was in them. -/
theorem map_takeOut {slots : Array (Option C)} {order : List Nat} (hnodup : order.Nodup)
    (hfull : ∀ i ∈ order, ∃ c, slots[i]? = some (some c)) :
    (takeOut slots order).map some = order.map fun i => slots[i]?.join := by
  induction order generalizing slots with
  | nil => rfl
  | cons i order ih =>
    obtain ⟨hi, hnodup⟩ := List.nodup_cons.1 hnodup
    obtain ⟨c, hc⟩ := hfull i List.mem_cons_self
    -- the slots still to be asked are the ones they were
    have hrest : ∀ j ∈ order, (slots.setIfInBounds i none)[j]? = slots[j]? := by
      intro j hj
      have hne : i ≠ j := fun h => hi (h ▸ hj)
      exact Array.getElem?_setIfInBounds_ne hne
    rw [takeOut, List.map_append, List.map_cons, ih hnodup fun j hj => ?_]
    · rw [List.map_congr_left fun j hj => congrArg Option.join (hrest j hj)]
      simp [hc]
    · rw [hrest j hj]
      exact hfull j (List.mem_cons_of_mem i hj)

theorem isBestOf_of_survive (hfitness : ∀ o ∈ objectives, o.NaNFree)
    (h : survive objectives active size population = .ok next) :
    IsBestOf objectives active size population next ∧ next.length = min size population.length := by
  obtain ⟨m, hm, h⟩ := bind_eq_ok.1 h
  obtain rfl := Except.ok.inj h
  have hnan := Matrix.nanFree_of_evaluate hfitness hm
  have hnodup := nodup_survivors hnan size
  have hslots : ∀ i : Nat, (population.map some).toArray[i]?.join = population[i]? := by
    intro i
    rw [List.getElem?_toArray, List.getElem?_map]
    cases population[i]? <;> rfl
  have hfull : ∀ i ∈ survivors pareto m size, ∃ c, (population.map some).toArray[i]? = some (some c) := by
    intro i hi
    have hlt : i < population.length := (Matrix.of_evaluate hm).1 ▸ lt_of_mem_survivors hnan hi
    exact ⟨population[i], by simp [hlt]⟩
  have htaken : (takeOut (population.map some).toArray (survivors pareto m size)).map some =
      (survivors pareto m size).map fun i => population[i]? :=
    (map_takeOut hnodup hfull).trans (List.map_congr_left fun i _ => hslots i)
  have hlength := congrArg List.length htaken
  rw [List.length_map, List.length_map, length_survivors hnan, (Matrix.of_evaluate hm).1] at hlength
  exact ⟨⟨m, hm, hnodup, htaken⟩, hlength⟩

theorem exists_survive (population : List C) (size : Nat) (h : ∀ t ∈ active, t < objectives.size) :
    ∃ next, survive objectives active size population = .ok next := by
  obtain ⟨m, hm⟩ := Matrix.exists_evaluate population h
  exact ⟨_, bind_eq_ok.2 ⟨m, hm, rfl⟩⟩

/-! ## The initial population -/

theorem length_generateEach {k : Collaborators σ C}
    (h : k.generateEach n state source = .ok ((fresh, state'), source')) : fresh.length = n := by
  induction n generalizing fresh state source state' source' with
  | zero =>
    obtain ⟨rfl, -⟩ := Prod.mk.inj (Prod.mk.inj (Except.ok.inj h)).1
    rfl
  | succ n ih =>
    obtain ⟨⟨⟨c, state₁⟩, source₁⟩, -, h⟩ := bind_eq_ok.1 h
    obtain ⟨⟨⟨rest, state₂⟩, source₂⟩, hrest, h⟩ := bind_eq_ok.1 h
    obtain ⟨rfl, -⟩ := Prod.mk.inj (Prod.mk.inj (Except.ok.inj h)).1
    rw [List.length_cons, ih hrest]

theorem length_generateMany [Chromosome C] {k : Collaborators σ C}
    (h : k.generateMany n state source = .ok ((fresh, state'), source')) : fresh.length = n := by
  obtain ⟨⟨⟨_, state₁⟩, source₁⟩, -, h⟩ := bind_eq_ok.1 h
  exact length_generateEach h

/-! ## Generations -/

theorem two_le_populationSize {c : Config} (h : c.validate = .ok ()) : 2 ≤ c.populationSize := by
  rw [Config.validate] at h
  split at h
  · exact nomatch h
  · omega

variable [Chromosome C]

theorem isBestOf_of_start (hfitness : ∀ o ∈ s.objectives, o.NaNFree) (h : s.start policy state = .ok p) :
    ∃ fresh state₁ source₁,
      s.collaborators.generateMany s.config.populationSize state s.source =
        .ok ((fresh, state₁), source₁) ∧
      IsBestOf s.objectives p.active s.config.populationSize (s.collaborators.execute fresh state₁).1 p.population ∧
      p.population.length = s.config.populationSize := by
  obtain ⟨policy₀, active₀, fresh, state₁, source₁, -, hfresh, hgeneration⟩ := generation_of_start h
  obtain ⟨hbest, hlength⟩ := isBestOf_of_survive hfitness hgeneration.survive_eq
  rw [blank, List.nil_append] at hbest hlength
  rw [s.collaborators.length_execute, length_generateMany hfresh, Nat.min_self] at hlength
  exact ⟨fresh, state₁, source₁, hfresh, hbest, hlength⟩

/-- A full population stays full, since it takes part in the survival itself. -/
theorem isBestOf_of_step (hfitness : ∀ o ∈ s.objectives, o.NaNFree)
    (hp : p.population.length = s.config.populationSize) (h : s.step g p = .ok q) : ∃ offspring state₁ source₁,
      s.collaborators.offspring p.population s.config.populationSize p.state p.source =
        .ok ((offspring, state₁), source₁) ∧
      IsBestOf s.objectives q.active s.config.populationSize
        (p.population ++ (s.collaborators.execute offspring state₁).1) q.population ∧
      q.population.length = s.config.populationSize := by
  obtain ⟨offspring, state₁, source₁, hoffspring, hgeneration⟩ := generation_of_step h
  obtain ⟨hbest, hlength⟩ := isBestOf_of_survive hfitness hgeneration.survive_eq
  rw [List.length_append, hp, Nat.min_eq_left (Nat.le_add_right _ _)] at hlength
  exact ⟨offspring, state₁, source₁, hoffspring, hbest, hlength⟩

theorem length_population_of_start (hfitness : ∀ o ∈ s.objectives, o.NaNFree) (h : s.start policy state = .ok p) :
    p.population.length = s.config.populationSize := by
  obtain ⟨-, -, -, -, -, hlength⟩ := isBestOf_of_start hfitness h
  exact hlength

theorem length_population_of_step (hfitness : ∀ o ∈ s.objectives, o.NaNFree)
    (hp : p.population.length = s.config.populationSize) (h : s.step g p = .ok q) :
    q.population.length = s.config.populationSize := by
  obtain ⟨-, -, -, -, -, hlength⟩ := isBestOf_of_step hfitness hp h
  exact hlength

theorem Reaches.length_population (hfitness : ∀ o ∈ s.objectives, o.NaNFree) (h : s.Reaches policy state g p) :
    p.population.length = s.config.populationSize := by
  induction h with
  | start h => exact length_population_of_start hfitness h
  | step _ _ _ h ih => exact length_population_of_step hfitness ih h

/-! ## Survival never fails -/

theorem Reaches.active_lt (h : s.Reaches policy state g p) :
    p.policy = .all → ∀ t ∈ p.active, t < s.objectives.size := by
  refine h.invariant (P := fun p => p.policy = .all → ∀ t ∈ p.active, t < s.objectives.size) ?_ ?_
  · intro policy₀ active₀ hinitial hall
    obtain rfl : policy₀ = .all := hall
    exact Policy.active_lt_of_initial hinitial
  · intro p batch q hp hgeneration hall
    obtain ⟨added, hupdate⟩ := hgeneration.update_eq
    exact Policy.active_lt hupdate hp

omit [Chromosome C] in
/-- Whatever is ranked, only the choice of the ranked objectives can fail. -/
theorem update_eq_error_of_rerank {e : Fault} (h : s.rerank population p = .error e)
    (hall : p.policy = .all → ∀ t ∈ p.active, t < s.objectives.size) :
    p.policy.update s.objectives population p.active = .error e := by
  rcases bind_eq_error.1 h with h | ⟨⟨policy, active, added⟩, hupdate, h⟩
  · exact h
  · obtain ⟨next, hnext⟩ := exists_survive population s.config.populationSize (Policy.active_lt hupdate hall)
    rcases bind_eq_error.1 h with h | ⟨next', -, h⟩
    · exact nomatch hnext.symm.trans h
    · exact nomatch h

theorem exists_announce {mean : Float} (h : p.archive.averageLength = .ok mean) : ∃ q, s.announce g p = .ok q := by
  have hsnapshot : ∃ snapshot, p.archive.snapshot g p.active.length = .ok snapshot := ⟨_, bind_eq_ok.2 ⟨mean, h, rfl⟩⟩
  obtain ⟨snapshot, hsnapshot⟩ := hsnapshot
  exact ⟨_, bind_eq_ok.2 ⟨_, bind_eq_ok.2 ⟨snapshot, hsnapshot, rfl⟩, rfl⟩⟩

/-! ## Requests for offspring -/

/-- The same search with other offspring. -/
def withOffspring (s : Search σ C) (offspring : List C → Nat → Action σ (List C)) : Search σ C :=
  { s with collaborators := { s.collaborators with offspring } }

variable {offspring : List C → Nat → Action σ (List C)}

omit [Chromosome C] in
theorem generateEach_withOffspring (n : Nat) :
    (s.withOffspring offspring).collaborators.generateEach n = s.collaborators.generateEach n := by
  induction n with
  | zero => rfl
  | succ n ih =>
    rw [Collaborators.generateEach, Collaborators.generateEach, ih]
    rfl

theorem start_withOffspring : (s.withOffspring offspring).start policy state = s.start policy state := by
  have hfresh : (s.withOffspring offspring).collaborators.generateMany s.config.populationSize =
      s.collaborators.generateMany s.config.populationSize := by
    rw [Collaborators.generateMany, Collaborators.generateMany, generateEach_withOffspring]
  show (ask ((s.withOffspring offspring).collaborators.generateMany s.config.populationSize) _ >>= _) = _
  rw [hfresh]
  rfl

theorem step_withOffspring (h : offspring p.population s.config.populationSize =
      s.collaborators.offspring p.population s.config.populationSize) :
    (s.withOffspring offspring).step g p = s.step g p := by
  show (ask (offspring p.population s.config.populationSize) p >>= _) = _
  rw [h]
  rfl

theorem advance_withOffspring (hfitness : ∀ o ∈ s.objectives, o.NaNFree)
    (hoffspring : ∀ population : List C, population.length = s.config.populationSize →
      offspring population s.config.populationSize = s.collaborators.offspring population s.config.populationSize)
    {left done : Nat} (hp : p.population.length = s.config.populationSize) :
    (s.withOffspring offspring).advance (s.withOffspring offspring).step left done p =
      s.advance s.step left done p := by
  induction left generalizing done p with
  | zero => rfl
  | succ left ih =>
    have hstop : (s.withOffspring offspring).stop? (done + 1) p.archive = s.stop? (done + 1) p.archive := rfl
    rw [advance, advance, hstop]
    cases s.stop? (done + 1) p.archive with
    | some stop => rfl
    | none =>
      show ((s.withOffspring offspring).step (done + 1) p >>= _) = (s.step (done + 1) p >>= _)
      rw [step_withOffspring (hoffspring _ hp)]
      rcases hstep : s.step (done + 1) p with e | q
      · rfl
      · exact ih (length_population_of_step hfitness hp hstep)

theorem evolve_withOffspring (hfitness : ∀ o ∈ s.objectives, o.NaNFree)
    (hoffspring : ∀ population : List C, population.length = s.config.populationSize →
      offspring population s.config.populationSize = s.collaborators.offspring population s.config.populationSize) :
    (s.withOffspring offspring).evolve policy state = s.evolve policy state := by
  rw [evolve, evolve, start_withOffspring]
  refine bind_congr fun _ => ?_
  rcases h : s.start policy state with e | p
  · rfl
  · show (advance _ _ _ _ _ >>= _) = (advance _ _ _ _ _ >>= _)
    rw [← advance_withOffspring hfitness hoffspring (length_population_of_start hfitness h)]
    rfl

/-! ## Main statement -/

/-- A search with a valid configuration and no NaN among its fitness values, whatever policy chooses the ranked
objectives. The population after the initial survival is the best of as many fresh individuals, executed, as it is to
have; after every generation it is the best of the population before and of the executed offspring, however many they
are. Both times it is full, and no individual is kept twice. Only the choice of the ranked objectives can fail here,
never the survival. So offspring are asked of full populations alone: what else they might be makes no difference. -/
theorem reaches_populationSize (s : Search σ C) (policy : Policy) (state : σ) (hconfig : s.config.validate = .ok ())
    (hfitness : ∀ o ∈ s.objectives, o.NaNFree) :
    2 ≤ s.config.populationSize ∧
    (∀ r, s.evolve policy state = .ok r → ∃ g p stop, s.Reaches policy state g p ∧ r = result p g stop) ∧
    (∀ p, s.start policy state = .ok p → ∃ fresh state₁ source₁,
      s.collaborators.generateMany s.config.populationSize state s.source =
        .ok ((fresh, state₁), source₁) ∧
      IsBestOf s.objectives p.active s.config.populationSize (s.collaborators.execute fresh state₁).1 p.population ∧
      p.population.length = s.config.populationSize) ∧
    (∀ g p, s.Reaches policy state g p → p.population.length = s.config.populationSize ∧
      ∀ q, s.step (g + 1) p = .ok q → ∃ offspring state₁ source₁,
        s.collaborators.offspring p.population s.config.populationSize p.state p.source =
          .ok ((offspring, state₁), source₁) ∧
        IsBestOf s.objectives q.active s.config.populationSize
          (p.population ++ (s.collaborators.execute offspring state₁).1) q.population ∧
        q.population.length = s.config.populationSize) ∧
    (∀ p, policy.initial s.objectives.size = .ok (p.policy, p.active) ∨ (∃ g, s.Reaches policy state g p) →
      ∀ population e, s.rerank population p = .error e →
        p.policy.update s.objectives population p.active = .error e) ∧
    ∀ offspring, (∀ population : List C, population.length = s.config.populationSize →
        offspring population s.config.populationSize = s.collaborators.offspring population s.config.populationSize) →
      (s.withOffspring offspring).evolve policy state = s.evolve policy state := by
  refine ⟨two_le_populationSize hconfig, fun r hr => exists_reaches_of_evolve hr,
    fun p hp => isBestOf_of_start hfitness hp, fun g p hp => ?_, fun p hp population e he => ?_,
    fun offspring hoffspring => evolve_withOffspring hfitness hoffspring⟩
  · have hlength := hp.length_population hfitness
    exact ⟨hlength, fun q hq => isBestOf_of_step hfitness hlength hq⟩
  · refine update_eq_error_of_rerank he fun hall => ?_
    rcases hp with hinitial | ⟨g, hp⟩
    · exact Policy.active_lt_of_initial (hall ▸ hinitial)
    · exact hp.active_lt hall

/-- A search for programs with the opcode `1`, whose offspring are one program whatever number is asked for. -/
def onlyChild : Search Unit Program where
  objectives := #[(Goal.hold [1]).objective]
  collaborators :=
    { generate := pure { opcodes := [0] }
      offspring := fun _ _ => pure [{ opcodes := [1] }]
      execute := fun population state => (population.map (Machine.execute {}), state)
      length_execute := fun _ _ => List.length_map _ }
  config := { populationSize := 2 }

theorem onlyChild_nanFree : ∀ o ∈ onlyChild.objectives, o.NaNFree := by
  intro o ho c
  obtain rfl := Array.mem_singleton.1 ho
  have hmissing : c.missing [1] ≤ 1 := List.countP_le_length
  show (Float.ofNat (c.missing [1])).isNaN = false
  rcases Nat.le_one_iff_eq_zero_or_eq_one.1 hmissing with h | h
  · rw [h]
    decide +kernel
  · rw [h]
    decide +kernel

/-- One offspring is no reason for a smaller population. -/
theorem reaches_populationSize_onlyChild : onlyChild.config.validate = .ok () ∧
    ∃ p q, onlyChild.Reaches .all () 0 p ∧ onlyChild.step 1 p = .ok q ∧ p.population.length = 2 ∧
      q.population.length = 2 := by
  have hvalid : onlyChild.config.validate = .ok () := by
    rw [← toOption_eq_some]
    decide +kernel
  have hstart : ((onlyChild.start .all ()).toOption.map fun p =>
      (p.archive.update [{ opcodes := [1] }]).averageLength.toOption.isSome) = some true := by decide +kernel
  obtain ⟨p, hp, hmean⟩ := Option.map_eq_some_iff.1 hstart
  obtain ⟨mean, hmean⟩ := Option.isSome_iff_exists.1 hmean
  have hreaches := Reaches.start (toOption_eq_some.1 hp)
  obtain ⟨-, -, -, hgenerations, -⟩ := reaches_populationSize onlyChild .all () hvalid onlyChild_nanFree
  obtain ⟨hlength, hstep⟩ := hgenerations 0 p hreaches
  -- the first generation: nothing fails in it, as every objective stays ranked
  obtain ⟨policy₀, active₀, _, _, _, hinitial, -, hgeneration⟩ := generation_of_start (toOption_eq_some.1 hp)
  obtain ⟨rfl, -⟩ := Prod.mk.inj (Except.ok.inj hinitial)
  obtain ⟨added, hupdate⟩ := hgeneration.update_eq
  obtain ⟨hpolicy, -⟩ := Prod.mk.inj (Except.ok.inj hupdate)
  have hroom : (p.population ++ [({ opcodes := [1] } : Program)]).length * 72 < wordBound / 2 := by
    rw [List.length_append, hlength]
    decide
  have hq : ∃ q, onlyChild.step 1 p = .ok q := by
    rcases hr : onlyChild.rerank (p.population ++ [{ opcodes := [1] }])
      { p with archive := p.archive.update [{ opcodes := [1] }] } with e | q₁
    · have hfailed := update_eq_error_of_rerank hr hreaches.active_lt
      rw [← hpolicy] at hfailed
      exact nomatch hfailed
    · obtain ⟨q, hq⟩ := exists_announce (s := onlyChild) (g := 1) (p := q₁) (by
        obtain ⟨_, _, _, _, -, -, rfl⟩ := exists_of_rerank hr
        exact toOption_eq_some.1 hmean)
      have hclaim := claim_eq_ok hroom
      refine ⟨q, bind_eq_ok.2 ⟨_, rfl, bind_eq_ok.2 ⟨(), hclaim, ?_⟩⟩⟩
      exact bind_eq_ok.2 ⟨q₁, hr, bind_eq_ok.2 ⟨(), hclaim, hq⟩⟩
  obtain ⟨q, hq⟩ := hq
  obtain ⟨-, -, -, -, -, hlength'⟩ := hstep q hq
  exact ⟨hvalid, p, q, hreaches, hq, hlength, hlength'⟩

end Search

end CoverSearch
