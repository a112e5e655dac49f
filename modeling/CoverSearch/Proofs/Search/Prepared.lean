import CoverSearch.Proofs.Search.Bookkeeping
import CoverSearch.Proofs.Search.Guard
import CoverSearch.Proofs.Search.Needs
import CoverSearch.Proofs.Search.Population
import CoverSearch.Proofs.Search.Positions

/-!
# What a generation relies on

A search with a valid configuration and objectives without a NaN, whose collaborators answer, comes to the end of each
generation: the population is full whenever offspring are bred of it, and all positions are those of objectives. What
may still fail there is the room for what has been ranked, and the report.

* `Search.Serves`, `Search.Equipped` : the runners, and what a search relies on throughout;
* `Search.Prepared` : what a generation relies on, and leaves;
* `Search.conclude` : the end of a generation, the only part that may fail;
* `Search.Equipped.exists_start`, `Search.Equipped.exists_first` : a first generation up to its end;
* `Search.Equipped.exists_generation` : any later one.
-/

namespace CoverSearch.Search

variable {σ C α : Type} [Chromosome C] {s : Search σ C} {runner : Runner} {policy : Policy} {state : σ}
  {p q : Progress σ C} {population : List C} {g : Nat}

/-! ## Runners -/

/-- A search on all its objectives, on the frontier of the analysis that they come from, or by fresh individuals. -/
inductive Serves (s : Search σ C) : Runner → Prop
  | all : Serves s (.evolution .all)
  | frontier {records : List Record} {a : Analysis} {coverage : C → Coverage} {f : Frontier} :
      Analysis.ofRecords records = .ok a → s.objectives = (a.objectives.map (·.toObjective coverage)).toArray →
      Frontier.ofAnalysis a a.objectives = .ok f → Serves s (.evolution (.dynamic f))
  | sampling : Serves s .sampling

omit [Chromosome C] in
theorem Serves.inRange (h : s.Serves (.evolution policy)) : policy.InRange s.objectives.size := by
  cases h with
  | all => trivial
  | frontier ha hobjectives hf =>
    obtain ⟨f', hf', hcontrols⟩ := Frontier.controls_ofAnalysis (Analysis.sound_of_ofRecords ha)
    obtain rfl := Except.ok.inj (hf'.symm.trans hf)
    rw [hobjectives, List.size_toArray, List.length_map]
    exact hcontrols.inRange

/-- What is asked for in generation `g` : fresh individuals at first and in a random search, else offspring. -/
def request (s : Search σ C) : Runner → Nat → List C → Action σ (List C)
  | .evolution _, _ + 1, population => s.collaborators.offspring population s.config.populationSize
  | _, _, _ => s.collaborators.generateMany s.config.populationSize

/-- The archive of which generation `g` takes a snapshot. -/
def offered (s : Search σ C) (runner : Runner) (g : Nat) (p : Progress σ C) : Except Fault (Archive C) := do
  let (batch, p) ← ask (s.request runner g p.population) p
  return (s.process batch p).2.archive

/-! ## One generation -/

/-- What the next generation relies on. -/
structure Prepared (s : Search σ C) (runner : Runner) (p : Progress σ C) : Prop where
  isKeyed_source : p.source.IsKeyed
  full : ∀ policy, runner = .evolution policy → p.population.length = s.config.populationSize
  ready : ∀ policy, runner = .evolution policy → p.policy.Ready s.objectives.size p.active

/-- The end of generation `g`: room for the ranking, and a snapshot, of which an evolution tells its listeners. -/
def conclude (s : Search σ C) (runner : Runner) (g : Nat) (p : Progress σ C) : Except Fault (Progress σ C) := do
  s.claimRoom runner g
  match runner with
  | .evolution _ => s.announce g p
  | .sampling =>
    let (p, _) ← capture g p
    return p

theorem asks_conclude (s : Search σ C) (runner : Runner) (g : Nat) (p : Progress σ C) :
    Asks (s.conclude runner g p) (s.RoomAt runner g ∧ p.archive.SizesFit) := by
  have hcapture : Asks (capture g p) p.archive.SizesFit := (p.archive.asks_snapshot g _).bind_pure
  refine (asks_claimRoom s runner g).bind fun _ _ => ?_
  cases runner with
  | evolution policy => exact hcapture.bind_pure
  | sampling => exact hcapture.bind_pure

theorem Prepared.of_conclude (hp : s.Prepared runner p) (h : s.conclude runner g p = .ok q) : s.Prepared runner q := by
  obtain ⟨_, -, h⟩ := bind_eq_ok.1 h
  cases runner with
  | evolution policy =>
    obtain ⟨e, -, rfl⟩ := exists_of_announce h
    exact ⟨hp.isKeyed_source, hp.full, hp.ready⟩
  | sampling =>
    obtain ⟨⟨p', e⟩, hcapture, h⟩ := bind_eq_ok.1 h
    obtain ⟨-, rfl⟩ := snapshot_of_capture hcapture
    obtain rfl := Except.ok.inj h
    exact ⟨hp.isKeyed_source, hp.full, hp.ready⟩

omit [Chromosome C] in
theorem exists_ask {request : Action σ α} (h : request.Answers) (hp : p.source.IsKeyed) :
    ∃ answer state source, request p.state p.source = .ok ((answer, state), source) ∧
      ask request p = .ok (answer, { p with source, state }) ∧ source.IsKeyed := by
  obtain ⟨⟨answer, state⟩, source, hrequest, hsource⟩ := h p.state p.source hp
  exact ⟨answer, state, source, hrequest, bind_eq_ok.2 ⟨_, hrequest, rfl⟩, hsource⟩

omit [Chromosome C] in
/-- Ranking a population that is large enough. -/
theorem exists_rerank (hfitness : ∀ o ∈ s.objectives, o.NaNFree) (hsize : s.config.populationSize ≤ population.length)
    (hready : p.policy.Ready s.objectives.size p.active) :
    ∃ policy active next, s.rerank population p = .ok { p with population := next, policy, active } ∧
      next.length = s.config.populationSize ∧ policy.Ready s.objectives.size active := by
  obtain ⟨policy, active, added, hupdate, hready', hactive⟩ := Policy.exists_update population hready
  obtain ⟨next, hnext⟩ := exists_survive population s.config.populationSize hactive
  refine ⟨policy, active, next, bind_eq_ok.2 ⟨_, hupdate, bind_eq_ok.2 ⟨next, hnext, rfl⟩⟩, ?_, hready'⟩
  rw [(isBestOf_of_survive hfitness hnext).2, Nat.min_eq_left hsize]

/-- What a search relies on that does not change during it. -/
structure Equipped (s : Search σ C) (runner : Runner) : Prop where
  validate_eq : s.config.validate = .ok ()
  nanFree : ∀ o ∈ s.objectives, o.NaNFree
  generate : s.collaborators.generate.Answers
  serves : s.Serves runner
  breeds : ∀ policy, runner = .evolution policy → s.collaborators.Breeds s.config.breeder ∧
    (∀ c d : C, Draw.Answers (Chromosome.crossover c d)) ∧ ∀ c : C, Draw.Answers (Chromosome.mutate c)

omit [Chromosome C] in
theorem isKeyed_source (s : Search σ C) : s.source.IsKeyed := Source.isKeyed_ofSeed _

namespace Equipped
variable (h : s.Equipped runner) (hroom : s.config.populationSize * individualBytes C < wordBound / 2)
include h hroom

theorem answers_request (hfull : ∀ policy, runner = .evolution policy → population.length = s.config.populationSize) :
    (s.request runner g population).Answers := by
  have hfresh := Collaborators.answers_generateMany h.generate hroom
  cases runner with
  | sampling => exact hfresh
  | evolution policy =>
    cases g with
    | zero => exact hfresh
    | succ g =>
      obtain ⟨hbreeds, hcrossover, hmutate⟩ := h.breeds policy rfl
      have hparents : 2 ≤ population.length := (two_le_populationSize h.validate_eq).trans_eq (hfull policy rfl).symm
      exact Collaborators.answers_offspring hbreeds (Config.varies_breeder h.validate_eq hcrossover hmutate) hparents
        hroom

/-- The individuals that a search begins with. -/
theorem exists_fresh (state : σ) : ∃ fresh state₁ source₁, fresh.length = s.config.populationSize ∧ source₁.IsKeyed ∧
    ∀ policy active, ask (s.collaborators.generateMany s.config.populationSize) (s.blank policy active state) =
      .ok (fresh, { s.blank policy active state with source := source₁, state := state₁ }) := by
  obtain ⟨⟨fresh, state₁⟩, source₁, hfresh, hsource⟩ :=
    Collaborators.answers_generateMany h.generate hroom state s.source s.isKeyed_source
  exact ⟨fresh, state₁, source₁, length_generateMany hfresh, hsource, fun _ _ => bind_eq_ok.2 ⟨_, hfresh, rfl⟩⟩

/-- The initial population, ranked and not yet reported on. -/
theorem exists_start (state : σ) (hrunner : runner = .evolution policy) : ∃ p,
    s.start policy state = (do s.claimRoom runner 0; checkHistory s.config; s.announce 0 p) ∧ s.Prepared runner p ∧
      s.offered runner 0 (s.blank .all [] state) = .ok p.archive := by
  subst hrunner
  obtain ⟨fresh, state₁, source₁, hfresh, hsource, hask⟩ := h.exists_fresh hroom state
  obtain ⟨policy₀, active₀, hinitial, hready⟩ := Policy.exists_initial h.serves.inRange
  have hlength : (s.collaborators.execute fresh state₁).1.length = s.config.populationSize := by
    rw [s.collaborators.length_execute, hfresh]
  let p₁ := (s.process fresh { s.blank policy [] state with source := source₁, state := state₁ }).2
  obtain ⟨policy₁, active₁, next, hrerank, hnext, hready₁⟩ :=
    exists_rerank (p := { p₁ with policy := policy₀, active := active₀ }) h.nanFree hlength.ge hready
  refine ⟨{ p₁ with population := next, policy := policy₁, active := active₁ }, ?_,
    ⟨hsource, fun _ _ => hnext, fun _ _ => hready₁⟩, bind_eq_ok.2 ⟨_, hask .all [], rfl⟩⟩
  rw [start, hask]
  show (policy.initial s.objectives.size >>= _) = _
  rw [hinitial]
  show (s.rerank _ { p₁ with policy := policy₀, active := active₀ } >>= fun _ =>
    claim ((Chromosome.storage C).ranked (s.collaborators.execute fresh state₁).1.length) >>= _) = _
  rw [hrerank, hlength]
  rfl

/-- Generation `g`, not yet reported on. -/
theorem exists_generation (hp : s.Prepared runner p) : ∃ q,
    s.generation runner (g + 1) p = s.conclude runner (g + 1) q ∧ s.Prepared runner q ∧
      s.offered runner (g + 1) p = .ok q.archive := by
  obtain ⟨batch, state₁, source₁, hrequest, hask, hsource⟩ := exists_ask (h.answers_request hroom hp.full (g := g + 1))
    hp.isKeyed_source
  let p₁ := (s.process batch { p with source := source₁, state := state₁ }).2
  have hoffered : s.offered runner (g + 1) p = .ok p₁.archive := bind_eq_ok.2 ⟨_, hask, rfl⟩
  cases runner with
  | sampling =>
    refine ⟨p₁, ?_, ⟨hsource, fun _ h => (nomatch h), fun _ h => (nomatch h)⟩, hoffered⟩
    show (ask (s.request .sampling (g + 1) p.population) p >>= _) = _
    rw [hask]
    rfl
  | evolution policy =>
    have hlength : (p.population ++ (s.collaborators.execute batch state₁).1).length = 2 * s.config.populationSize := by
      rw [List.length_append, hp.full policy rfl, s.collaborators.length_execute,
        Collaborators.length_offspring (h.breeds policy rfl).1 hrequest, Nat.two_mul]
    obtain ⟨policy₁, active₁, next, hrerank, hnext, hready⟩ :=
      exists_rerank (p := p₁) h.nanFree (hlength ▸ Nat.le_mul_of_pos_left _ Nat.two_pos) (hp.ready policy rfl)
    refine ⟨{ p₁ with population := next, policy := policy₁, active := active₁ }, ?_,
      ⟨hsource, fun _ _ => hnext, fun _ _ => hready⟩, hoffered⟩
    show (ask (s.request (.evolution policy) (g + 1) p.population) p >>= _) = _
    rw [hask]
    show (claim ((Chromosome.storage C).joined _) >>= fun _ => s.rerank _ p₁ >>= fun _ =>
      claim ((Chromosome.storage C).ranked _) >>= _) = _
    rw [hrerank, hlength]
    unfold conclude claimRoom
    rw [bind_assoc]
    rfl

/-- The first batch of a random search, not yet reported on. -/
theorem exists_first (state : σ) (hrunner : runner = .sampling) : ∃ p,
    s.first runner state = s.conclude runner 0 p ∧ s.Prepared runner p ∧
      s.offered runner 0 (s.blank .all [] state) = .ok p.archive := by
  subst hrunner
  obtain ⟨fresh, state₁, source₁, -, hsource, hask⟩ := h.exists_fresh hroom state
  let p₁ := (s.process fresh { s.blank .all (List.range s.objectives.size) state with
    source := source₁, state := state₁ }).2
  refine ⟨p₁, ?_, ⟨hsource, fun _ h => (nomatch h), fun _ h => (nomatch h)⟩, bind_eq_ok.2 ⟨_, hask .all [], rfl⟩⟩
  rw [first, sampleBatch, hask]
  rfl

end Equipped

end CoverSearch.Search
