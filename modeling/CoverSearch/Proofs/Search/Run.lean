import CoverSearch.Proofs.Success
import CoverSearch.Search.Evolution

/-!
# Runs of an evolutionary search

A generation gives an executed batch to the archive, chooses the ranked objectives anew and lets the best of population
and batch survive. The initial population does the same to a search that has no population yet, so one step lemma serves
both.

* `Search.Generation` : what a generation does, whatever its collaborators answer;
* `Search.generation_of_start`, `Search.generation_of_step` : the initial population and every later one;
* `Search.Reaches` : the progress after the generations of a run;
* `Search.Reaches.invariant` : what holds of a blank search and is preserved by a generation holds after each of them;
* `Search.exists_reaches_of_evolve` : a run that returns reports such a progress.
-/

namespace CoverSearch.Search

variable {σ C : Type} [Chromosome C] {s : Search σ C} {policy : Policy} {state : σ} {p q : Progress σ C}
  {population batch : List C} {g done : Nat}

/-- What an executed batch does to a search: it is archived, the ranked objectives are chosen for the population and
the batch together, and the best of these survive. -/
structure Generation (s : Search σ C) (p : Progress σ C) (batch : List C) (q : Progress σ C) : Prop where
  archive_eq : q.archive = p.archive.update batch
  update_eq : ∃ added, p.policy.update s.objectives (p.population ++ batch) p.active = .ok (q.policy, q.active, added)
  survive_eq : survive s.objectives q.active s.config.populationSize (p.population ++ batch) = .ok q.population

/-- The progress after generation `g` of a run, the initial population being generation `0`. -/
inductive Reaches (s : Search σ C) (policy : Policy) (state : σ) : Nat → Progress σ C → Prop
  | start {p : Progress σ C} : s.start policy state = .ok p → Reaches s policy state 0 p
  | step {g : Nat} {p q : Progress σ C} : Reaches s policy state g p → g < s.config.maxGenerations →
      s.stop? (g + 1) p.archive = none → s.step (g + 1) p = .ok q → Reaches s policy state (g + 1) q

/-! ## One generation -/

omit [Chromosome C] in
/-- A request changes the source of words and the state of the collaborators only. -/
theorem exists_of_ask {α : Type} {request : Action σ α} {answer : α} (h : ask request p = .ok (answer, q)) :
    ∃ state source, request p.state p.source = .ok ((answer, state), source) ∧ q = { p with source, state } := by
  obtain ⟨⟨⟨answer', state⟩, source⟩, hrequest, h⟩ := bind_eq_ok.1 h
  obtain ⟨rfl, hq⟩ := ok_pair_inj h
  exact ⟨state, source, hrequest, hq.symm⟩

theorem snapshot_of_capture {e : Snapshot} (h : capture g p = .ok (q, e)) :
    p.archive.snapshot g p.active.length = .ok e ∧ q = { p with history := p.history ++ [e] } := by
  obtain ⟨e', he, h⟩ := bind_eq_ok.1 h
  obtain ⟨rfl, rfl⟩ := ok_pair_inj h
  exact ⟨he, rfl⟩

/-- An announcement changes the history and the state of the collaborators only. -/
theorem exists_of_announce (h : s.announce g p = .ok q) : ∃ e, p.archive.snapshot g p.active.length = .ok e ∧
    q = { p with history := p.history ++ [e], state := s.collaborators.notify e p.state } := by
  obtain ⟨⟨p', e⟩, hcapture, h⟩ := bind_eq_ok.1 h
  obtain ⟨he, rfl⟩ := snapshot_of_capture hcapture
  exact ⟨e, he, (Except.ok.inj h).symm⟩

omit [Chromosome C] in
theorem exists_of_rerank (h : s.rerank population p = .ok q) : ∃ policy active added survivors,
    p.policy.update s.objectives population p.active = .ok (policy, active, added) ∧
      survive s.objectives active s.config.populationSize population = .ok survivors ∧
      q = { p with population := survivors, policy, active } := by
  obtain ⟨⟨policy, active, added⟩, hupdate, h⟩ := bind_eq_ok.1 h
  obtain ⟨survivors, hsurvive, h⟩ := bind_eq_ok.1 h
  exact ⟨policy, active, added, survivors, hupdate, hsurvive, (Except.ok.inj h).symm⟩

theorem generation_of_step (h : s.step g p = .ok q) : ∃ offspring state source,
    s.collaborators.offspring p.population s.config.populationSize p.state p.source = .ok ((offspring, state), source) ∧
      s.Generation p (s.collaborators.execute offspring state).1 q := by
  obtain ⟨⟨offspring, p₁⟩, hask, h⟩ := bind_eq_ok.1 h
  obtain ⟨state, source, hrequest, rfl⟩ := exists_of_ask hask
  obtain ⟨-, -, h⟩ := bind_eq_ok.1 h
  obtain ⟨p₂, hrerank, h⟩ := bind_eq_ok.1 h
  obtain ⟨policy, active, added, survivors, hupdate, hsurvive, rfl⟩ := exists_of_rerank hrerank
  obtain ⟨-, -, h⟩ := bind_eq_ok.1 h
  obtain ⟨e, -, rfl⟩ := exists_of_announce h
  exact ⟨offspring, state, source, hrequest, rfl, ⟨added, hupdate⟩, hsurvive⟩

/-- The initial population is a generation of a search without one. -/
theorem generation_of_start (h : s.start policy state = .ok q) : ∃ policy₀ active₀ fresh state₁ source₁,
    policy.initial s.objectives.size = .ok (policy₀, active₀) ∧
      s.collaborators.generateMany s.config.populationSize state s.source = .ok ((fresh, state₁), source₁) ∧
      s.Generation (s.blank policy₀ active₀ state) (s.collaborators.execute fresh state₁).1 q := by
  obtain ⟨⟨fresh, p₁⟩, hask, h⟩ := bind_eq_ok.1 h
  obtain ⟨state₁, source₁, hrequest, rfl⟩ := exists_of_ask hask
  obtain ⟨⟨policy₀, active₀⟩, hinitial, h⟩ := bind_eq_ok.1 h
  obtain ⟨p₂, hrerank, h⟩ := bind_eq_ok.1 h
  obtain ⟨policy, active, added, survivors, hupdate, hsurvive, rfl⟩ := exists_of_rerank hrerank
  obtain ⟨-, -, h⟩ := bind_eq_ok.1 h
  obtain ⟨-, -, h⟩ := bind_eq_ok.1 h
  obtain ⟨e, -, rfl⟩ := exists_of_announce h
  exact ⟨policy₀, active₀, fresh, state₁, source₁, hinitial, hrequest, rfl, ⟨added, hupdate⟩, hsurvive⟩

omit [Chromosome C] in
theorem exists_of_mem_takeOut {slots : Array (Option C)} {order : List Nat} {c : C} (h : c ∈ takeOut slots order) :
    ∃ i : Nat, slots[i]? = some (some c) := by
  induction order generalizing slots with
  | nil => exact absurd h List.not_mem_nil
  | cons i order ih =>
    rcases List.mem_append.1 h with h | h
    · exact ⟨i, Option.join_eq_some_iff.1 (Option.mem_toList.1 h)⟩
    · obtain ⟨j, hj⟩ := ih h
      exact ⟨j, by grind⟩

omit [Chromosome C] in
theorem mem_of_mem_survive {objectives : Array (Objective C)} {active : List Nat} {size : Nat} {survivors : List C}
    (h : survive objectives active size population = .ok survivors) {c : C} (hc : c ∈ survivors) : c ∈ population := by
  obtain ⟨m, -, h⟩ := bind_eq_ok.1 h
  obtain rfl := Except.ok.inj h
  obtain ⟨i, hi⟩ := exists_of_mem_takeOut hc
  rw [List.getElem?_toArray, List.getElem?_map, Option.map_eq_some_iff] at hi
  obtain ⟨d, hd, heq⟩ := hi
  exact Option.some.inj heq ▸ List.mem_of_getElem? hd

/-! ## Whole runs -/

/-- A generation that preserves `P` keeps it for a whole run. -/
theorem Reaches.invariant {P : Progress σ C → Prop}
    (hstart : ∀ policy₀ active₀, policy.initial s.objectives.size = .ok (policy₀, active₀) →
      P (s.blank policy₀ active₀ state))
    (hstep : ∀ p batch q, P p → s.Generation p batch q → P q) (h : s.Reaches policy state g p) : P p := by
  induction h with
  | start h =>
    obtain ⟨policy₀, active₀, fresh, state₁, source₁, hinitial, -, hgeneration⟩ := generation_of_start h
    exact hstep _ _ _ (hstart policy₀ active₀ hinitial) hgeneration
  | step _ _ _ h ih =>
    obtain ⟨offspring, state', source', -, hgeneration⟩ := generation_of_step h
    exact hstep _ _ _ ih hgeneration

theorem reaches_of_advance {left : Nat} {stop : Option Stop} (hp : s.Reaches policy state done p)
    (hleft : done + left ≤ s.config.maxGenerations) (h : s.advance s.step left done p = .ok (q, g, stop)) :
    s.Reaches policy state g q := by
  induction left generalizing done p with
  | zero =>
    obtain ⟨rfl, rfl, -⟩ := ok_triple_inj h
    exact hp
  | succ left ih =>
    rw [advance] at h
    rcases hstop : s.stop? (done + 1) p.archive with _ | stop' <;> rw [hstop] at h
    · obtain ⟨p', hstep, h⟩ := bind_eq_ok.1 h
      exact ih (hp.step (by omega) hstop hstep) (by omega) h
    · obtain ⟨rfl, rfl, -⟩ := ok_triple_inj h
      exact hp

/-- A run that returns reports the progress after its last generation. -/
theorem exists_reaches_of_evolve {r : Result C × σ} (h : s.evolve policy state = .ok r) :
    ∃ g p stop, s.Reaches policy state g p ∧ r = result p g stop := by
  obtain ⟨-, -, h⟩ := bind_eq_ok.1 h
  obtain ⟨p, hstart, h⟩ := bind_eq_ok.1 h
  obtain ⟨⟨q, g, stop⟩, hadvance, h⟩ := bind_eq_ok.1 h
  exact ⟨g, q, stop, reaches_of_advance (.start hstart) (by omega) hadvance, (Except.ok.inj h).symm⟩

end CoverSearch.Search
