import CoverSearch.Program
import CoverSearch.Proofs.Archive.History
import CoverSearch.Proofs.Frontier.Objectives
import CoverSearch.Proofs.Frontier.Update
import CoverSearch.Proofs.Search.Run

/-!
# The frontier of a search never dries up

After every generation the roots of the frontier are visited, and every visited objective that is not active has an
entry in the archive and visited dependents. This takes three parts to agree: the population is executed before it is
ranked, so that whatever it covers has been offered to the archive; entries stay; and the frontier follows the edges of
the graphs. Hence a walk from a root to an objective without an entry has to meet an active objective, and there is such
a walk to every objective, since the graphs hold reachable vertices only.

* `Search.ofAnalysis` : the search for all objectives of an analysis;
* `Search.Guarded` : the invariant; `Search.guarded_blank`, `Search.Guarded.generation` : its start and its step;
* `Search.exists_activeAt` : a walk to an objective without an entry meets an active target;
* `Search.reaches_guarded` : the result for every run over an analysis.
-/

namespace CoverSearch.Search

variable {σ C : Type} [Chromosome C] {s : Search σ C} {state : σ} {p q : Progress σ C} {batch : List C}
  {objectives : Array (Objective C)} {f₀ f : Frontier} {active : List Nat} {i n : Nat}

/-- The search for all objectives of an analysis. -/
def ofAnalysis (a : Analysis) (coverage : C → Coverage) (collaborators : Collaborators σ C) (config : Config)
    (cancelled : Nat → Bool) : Search σ C :=
  { objectives := (a.objectives.map (·.toObjective coverage)).toArray, collaborators, config, cancelled }

/-- The frontier guards what is not archived, and all that the population covers is archived. -/
structure Guarded (objectives : Array (Objective C)) (f₀ : Frontier) (p : Progress σ C) : Prop where
  policy_eq : ∃ f, p.policy = .dynamic f ∧ f.roots = f₀.roots ∧ f.dependents = f₀.dependents ∧
    f.Guards p.active p.archive.HasEntry
  objective_slots : p.archive.slots.map (·.objective) = objectives.toList
  hasEntry_of_covers : ∀ c ∈ p.population, ∀ i o, objectives[i]? = some o → o.covers c = true → p.archive.HasEntry i

/-! ## The invariant -/

omit [Chromosome C] in
theorem guarded_blank (h : f₀.initial n = .ok (f, active)) :
    Guarded s.objectives f₀ (s.blank (.dynamic f) active state) where
  policy_eq := ⟨f, rfl, Frontier.guards_initial h _⟩
  objective_slots := by
    show ((s.objectives.toList.map _).map _) = _
    rw [List.map_map]
    exact List.map_id _
  hasEntry_of_covers := fun _ h => absurd h List.not_mem_nil

/-- What a batch covers has an entry afterwards. -/
theorem hasEntry_of_mem_batch {a : Archive C} (hslots : a.slots.map (·.objective) = objectives.toList)
    (hcovers : ∀ o ∈ objectives, ∀ c, o.covers c = true → (o.fitness c == 0) = true) {c : C} (hc : c ∈ batch)
    {o : Objective C} (ho : objectives[i]? = some o) (hcover : o.covers c = true) : (a.update batch).HasEntry i := by
  have hslot : (a.slots.map (·.objective))[i]? = some o := by rw [hslots, Array.getElem?_toList, ho]
  rw [List.getElem?_map, Option.map_eq_some_iff] at hslot
  obtain ⟨slot, hslot, rfl⟩ := hslot
  exact Archive.hasEntry_update hslot hc (hcovers _ (Array.mem_of_getElem? ho) c hcover)

theorem Guarded.generation (hcovers : ∀ o ∈ s.objectives, ∀ c, o.covers c = true → (o.fitness c == 0) = true)
    (hp : Guarded s.objectives f₀ p) (h : s.Generation p batch q) : Guarded s.objectives f₀ q := by
  obtain ⟨⟨f, hpolicy, hroots, hdependents, hguards⟩, hslots, hpopulation⟩ := hp
  obtain ⟨harchive, ⟨added, hupdate⟩, hsurvive⟩ := h
  -- the population was offered in earlier generations, the batch just now
  have hstays : ∀ i, p.archive.HasEntry i → q.archive.HasEntry i := fun i ⟨c, hc⟩ => by
    obtain ⟨d, hd, -⟩ := Archive.entry?_update batch hc
    exact ⟨d, harchive ▸ hd⟩
  have hranked : ∀ c ∈ p.population ++ batch, ∀ i o, s.objectives[i]? = some o → o.covers c = true →
      q.archive.HasEntry i := by
    intro c hc i o ho hcover
    rcases List.mem_append.1 hc with hc | hc
    · exact hstays i (hpopulation c hc i o ho hcover)
    · exact harchive ▸ hasEntry_of_mem_batch hslots hcovers hc ho hcover
  have hcoveredBy : ∀ i, coveredBy s.objectives (p.population ++ batch) i = .ok true → q.archive.HasEntry i := by
    intro i hi
    obtain ⟨o, ho, c, hc, hcover⟩ := exists_of_coveredBy hi
    exact hranked c hc i o ho hcover
  rw [hpolicy] at hupdate
  obtain ⟨f', hpolicy', hupdate⟩ := Policy.exists_of_update_dynamic hupdate
  obtain ⟨hroots', hdependents', hguards'⟩ := (hguards.mono hstays).update hcoveredBy hupdate
  refine ⟨⟨f', hpolicy', hroots'.trans hroots, hdependents'.trans hdependents, hguards'⟩, ?_, fun c hc => ?_⟩
  · rw [harchive, Archive.map_objective_update, hslots]
  · exact hranked c (mem_of_mem_survive hsurvive hc)

theorem Reaches.guarded {g : Nat} (hcovers : ∀ o ∈ s.objectives, ∀ c, o.covers c = true → (o.fitness c == 0) = true)
    (h : s.Reaches (.dynamic f₀) state g p) : Guarded s.objectives f₀ p := by
  refine h.invariant (P := Guarded s.objectives f₀) (fun policy₀ active₀ hinitial => ?_)
    fun p batch q hp hgeneration => hp.generation hcovers hgeneration
  obtain ⟨f, rfl, hroots⟩ := Policy.exists_of_initial_dynamic hinitial
  exact guarded_blank hroots

/-! ## Walks -/

/-- The position of an active target in its graph. -/
def ActiveAt (objectives : List BlockObjective) (active : List Nat) (graph : Graph) (v : Nat) : Prop :=
  ∃ k ∈ active, ∃ o, objectives[k]? = some o ∧ o.target = graph.vertex v

/-- The root, and the position of a target that has been passed. -/
def PassedAt (objectives : List BlockObjective) (f : Frontier) (archived : Nat → Prop) (graph : Graph) (v : Nat) : Prop :=
  v = graph.root ∨ ∃ k o, objectives[k]? = some o ∧ o.graph = graph ∧ o.position = v ∧ archived k ∧
    Frontier.IsOpen f.dependents f.visited k

variable {a : Analysis} {archived : Nat → Prop}

/-- An edge from what has been passed leads to what has been passed or is active. -/
theorem passedAt_or_activeAt (ha : a.Sound) (hcontrols : f.Controls a.objectives) (hguards : f.Guards active archived)
    {graph : Graph} (hgraph : graph ∈ a.graphs) {u v : Nat} (hu : PassedAt a.objectives f archived graph u)
    (hedge : (u, v) ∈ graph.edges) :
    PassedAt a.objectives f archived graph v ∨ ActiveAt a.objectives active graph v := by
  by_cases hroot : v = graph.root
  · exact Or.inl (Or.inl hroot)
  by_cases hloop : v = u
  · exact Or.inl (hloop ▸ hu)
  obtain ⟨k, o, hk, rfl, rfl, hroots, hawaits⟩ := hcontrols.exists_of_edge ha hgraph hedge hroot hloop
  -- the end of the edge is a root of the frontier, or a dependent of what has been passed
  have hmarked : Frontier.IsMarked f.visited k := by
    rcases hu with rfl | ⟨j, o', ho', hsame, hposition, -, next, hnext, hall⟩
    · exact hguards.isMarked_roots k (hroots rfl)
    · obtain ⟨next', hnext', hmem⟩ := hawaits j o' ho' hsame hposition
      obtain rfl := Option.some.inj (hnext.symm.trans hnext')
      exact hall k hmem
  rcases hguards.active_or_passed k hmarked with hactive | ⟨harchived, hopen⟩
  · exact Or.inr ⟨k, hactive, o, hk, o.vertex_position.symm⟩
  · exact Or.inl (Or.inr ⟨k, o, hk, rfl, rfl, harchived, hopen⟩)

/-- A walk to an objective that is not archived meets an active one. -/
theorem exists_activeAt (ha : a.Sound) (hcontrols : f.Controls a.objectives) (hguards : f.Guards active archived)
    {o : BlockObjective} (ho : a.objectives[i]? = some o) (hi : ¬ archived i) {w : List Nat}
    (hw : IsWalk o.graph.edges o.graph.root o.position w) : ∃ v ∈ w, ActiveAt a.objectives active o.graph v := by
  have hmem := List.mem_of_getElem? ho
  have hgraph := (Analysis.mem_objectives.1 hmem).1
  refine (hw.leaves (Or.inl rfl) fun u v hu hedge =>
    passedAt_or_activeAt ha hcontrols hguards hgraph hu hedge).resolve_left ?_
  rintro (hroot | ⟨k, o', ho', hsame, hposition, harchived, -⟩)
  · exact ha.position_ne_root hmem hroot
  · exact hi (Frontier.index_eq_of_position ha ho ho' hsame hposition ▸ harchived)

/-! ## Main statement -/

omit [Chromosome C] in
theorem covers_ofAnalysis {coverage : C → Coverage} {collaborators : Collaborators σ C} {config : Config}
    {cancelled : Nat → Bool} {o : Objective C} (ho : o ∈ (ofAnalysis a coverage collaborators config cancelled).objectives)
    {c : C} (hcover : o.covers c = true) : (o.fitness c == 0) = true := by
  obtain ⟨b, -, rfl⟩ := List.mem_map.1 (List.mem_toArray.1 ho)
  exact hcover

omit [Chromosome C] in
theorem Guarded.totalTargets_eq (h : Guarded objectives f₀ p) : p.archive.totalTargets = objectives.size := by
  rw [Archive.totalTargets, ← List.length_map (·.objective), h.objective_slots, Array.length_toList]

/-- A search for all objectives of an analysis, under the frontier of that analysis. After the initial population and
after every generation, each walk from the root to an objective without an entry meets an active target; so when
nothing is active, all objectives are covered. The progress that a run reports is one of these. -/
theorem reaches_guarded (records : List Record) (a : Analysis) (ha : Analysis.ofRecords records = .ok a)
    (coverage : C → Coverage) (collaborators : Collaborators σ C) (config : Config) (cancelled : Nat → Bool) (state : σ) :
    ∃ f, Frontier.ofAnalysis a a.objectives = .ok f ∧
      (∀ r, (ofAnalysis a coverage collaborators config cancelled).dynaMosa f state = .ok r → ∃ g p stop,
        (ofAnalysis a coverage collaborators config cancelled).Reaches (.dynamic f) state g p ∧ r = result p g stop) ∧
      ∀ g p, (ofAnalysis a coverage collaborators config cancelled).Reaches (.dynamic f) state g p →
        p.archive.totalTargets = a.objectives.length ∧
        (∀ i o, a.objectives[i]? = some o → p.archive.entry? i = .ok none →
          ∀ w, IsWalk o.graph.edges o.graph.root o.position w → ∃ v ∈ w, ActiveAt a.objectives p.active o.graph v) ∧
        (p.active = [] → p.archive.coveredTargets = p.archive.totalTargets) := by
  have hsound := Analysis.sound_of_ofRecords ha
  obtain ⟨f, hf, hcontrols⟩ := Frontier.controls_ofAnalysis hsound
  refine ⟨f, hf, fun r hr => exists_reaches_of_evolve hr, fun g p hp => ?_⟩
  have hguarded := hp.guarded fun o ho c hcover => covers_ofAnalysis ho hcover
  have htotal : p.archive.totalTargets = a.objectives.length := by
    rw [hguarded.totalTargets_eq, ofAnalysis, List.size_toArray, List.length_map]
  obtain ⟨f', -, hroots, hdependents, hguards⟩ := hguarded.policy_eq
  have hcontrols' : f'.Controls a.objectives := hcontrols.congr hroots hdependents
  have hwalks : ∀ i o, a.objectives[i]? = some o → p.archive.entry? i = .ok none →
      ∀ w, IsWalk o.graph.edges o.graph.root o.position w → ∃ v ∈ w, ActiveAt a.objectives p.active o.graph v := by
    intro i o ho hnone w hw
    refine exists_activeAt hsound hcontrols' hguards ho (fun hentry => ?_) hw
    obtain ⟨c, hc⟩ := hentry
    exact nomatch hnone.symm.trans hc
  refine ⟨htotal, hwalks, fun hactive => Archive.coveredTargets_eq_totalTargets fun i hi hnone => ?_⟩
  -- the graph has a walk to the objective, which would have to meet an active target
  have ho := List.getElem?_eq_getElem (htotal ▸ hi)
  have hgraph := (Analysis.mem_objectives.1 (List.mem_of_getElem? ho)).1
  obtain ⟨w, hw⟩ := (hsound.sound _ hgraph).reachable _ (BlockObjective.position_lt _)
  obtain ⟨v, -, k, hk, -⟩ := hwalks i _ ho hnone w hw
  rw [hactive] at hk
  exact List.not_mem_nil hk

/-- A target that the root controls, and one that controls it back. -/
def loopRecord : Record := { unit := "f", nodes := [rootBlock, 1, 2], edges := [⟨0, 1⟩, ⟨1, 2⟩, ⟨2, 1⟩] }

/-- Collaborators whose programs never record anything. -/
def idle : Collaborators Unit Program where
  generate := pure { opcodes := [] }
  offspring := fun population _ => pure population
  execute := fun population state => (population, state)
  length_execute := fun _ _ => rfl

/-- The initial population reaches nothing, so the target that the root controls stays active and guards the other. -/
theorem reaches_guarded_loopRecord : ∃ a f p, Analysis.ofRecords [loopRecord] = .ok a ∧
    (ofAnalysis a Program.coverage idle { populationSize := 2 } fun _ => false).Reaches (.dynamic f) () 0 p ∧
    p.active = [0] ∧
    ∀ i o, a.objectives[i]? = some o → p.archive.entry? i = .ok none →
      ∀ w, IsWalk o.graph.edges o.graph.root o.position w → ∃ v ∈ w, ActiveAt a.objectives p.active o.graph v := by
  have hrun : (do
      let a ← (Analysis.ofRecords [loopRecord]).toOption
      let f ← (Frontier.ofAnalysis a a.objectives).toOption
      let p ← ((ofAnalysis a Program.coverage idle { populationSize := 2 } fun _ => false).start
        (.dynamic f) ()).toOption
      return p.active) = some [0] := by decide +kernel
  obtain ⟨a, ha, hrun⟩ := Option.bind_eq_some_iff.1 hrun
  obtain ⟨f, hf, hrun⟩ := Option.bind_eq_some_iff.1 hrun
  obtain ⟨p, hp, hactive⟩ := Option.bind_eq_some_iff.1 hrun
  rw [toOption_eq_some] at ha hf hp
  obtain ⟨f', hf', -, hguarded⟩ := reaches_guarded [loopRecord] a ha Program.coverage idle { populationSize := 2 }
    (fun _ => false) ()
  obtain rfl := Except.ok.inj (hf'.symm.trans hf)
  exact ⟨a, f', p, ha, .start hp, Option.some.inj hactive, (hguarded 0 p (.start hp)).2.1⟩

end CoverSearch.Search
