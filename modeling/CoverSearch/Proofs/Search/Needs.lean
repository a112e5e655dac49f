import CoverSearch.Proofs.Archive.Tests
import CoverSearch.Proofs.Breeding.Siblings
import CoverSearch.Proofs.Frontier.Objectives
import CoverSearch.Proofs.Frontier.Stages
import CoverSearch.Proofs.Search.Course

/-!
# What a search asks for

A search asks for room, for the sum of some sizes, for individuals, and for the objectives to be ranked. Here is what
each of these needs to be had.

* `Asks` : a result if a condition holds, and else a failure for a size; `Asks.bind` : one such request after another;
* `Search.RoomAt`, `Search.HasRoom` : the room that a search asks for;
* `Archive.SizesFit` : the sum that a snapshot asks for;
* `Action.Answers`, `Collaborators.Breeds` : collaborators that answer, and that breed as a breeder does;
* `Policy.Ready` : a choice of ranked objectives that cannot fail; `Frontier.Controls.inRange` : nor can that of an
  analysis.
-/

namespace CoverSearch

variable {σ C α β : Type}

/-! ## Sizes as the only failure -/

/-- A failure for the size of something. -/
def Fault.IsSize : Fault → Prop
  | .capacity => True
  | .overflow => True
  | _ => False

theorem Fault.isSize_capacity : Fault.capacity.IsSize := trivial

theorem Fault.isSize_overflow : Fault.overflow.IsSize := trivial

/-- There is a result if a condition holds, and else a failure for a size. -/
structure Asks (x : Except Fault α) (P : Prop) : Prop where
  returns : P → ∃ a, x = .ok a
  fails : ¬ P → ∃ e, x = .error e ∧ e.IsSize

namespace Asks

variable {x : Except Fault α} {f : α → Except Fault β} {P Q : Prop}

theorem ok (a : α) : Asks (.ok a) True := ⟨fun _ => ⟨a, rfl⟩, fun h => absurd trivial h⟩

theorem error {e : Fault} (h : e.IsSize) : Asks (.error e : Except Fault α) False :=
  ⟨False.elim, fun _ => ⟨e, rfl, h⟩⟩

theorem congr (h : Asks x P) (hPQ : P ↔ Q) : Asks x Q :=
  ⟨fun hQ => h.returns (hPQ.2 hQ), fun hQ => h.fails (mt hPQ.1 hQ)⟩

theorem holds (h : Asks x P) {a : α} (hx : x = .ok a) : P := by
  by_contra hP
  obtain ⟨e, he, -⟩ := h.fails hP
  cases hx.symm.trans he

theorem returns_iff (h : Asks x P) : (∃ a, x = .ok a) ↔ P := by
  constructor
  · rintro ⟨a, hx⟩
    exact h.holds hx
  · exact h.returns

theorem isSize (h : Asks x P) {e : Fault} (hx : x = .error e) : e.IsSize := by
  by_cases hP : P
  · obtain ⟨a, ha⟩ := h.returns hP
    cases hx.symm.trans ha
  · obtain ⟨e', he', hsize⟩ := h.fails hP
    rwa [Except.error.inj (hx.symm.trans he')]

/-- What is asked for first, and then what is asked for on its result. -/
theorem bind (h : Asks x P) (hf : ∀ a, x = .ok a → Asks (f a) Q) : Asks (x >>= f) (P ∧ Q) := by
  by_cases hP : P
  · obtain ⟨a, rfl⟩ := h.returns hP
    exact (hf a rfl).congr (and_iff_right hP).symm
  · obtain ⟨e, rfl, he⟩ := h.fails hP
    exact (error he).congr (iff_of_false not_false fun hboth => hP hboth.1)

/-- What follows asks for nothing more. -/
theorem bind_pure (h : Asks x P) {k : α → β} : Asks (x >>= fun a => pure (k a)) P :=
  (h.bind fun a _ => ok (k a)).congr (and_iff_left trivial)

end Asks

theorem asks_claim (bytes : Nat) : Asks (claim bytes) (bytes < wordBound / 2) :=
  ⟨fun h => ⟨(), claim_eq_ok h⟩, fun h => ⟨.capacity, claim_eq_error h, Fault.isSize_capacity⟩⟩

/-! ## Room -/

namespace Search

variable [Chromosome C] {s : Search σ C} {runner : Runner} {g : Nat}

/-- There is room to rank what generation `g` of an evolution ranks: the initial population, and then the population
joined by as many offspring. -/
def RoomAt (s : Search σ C) : Runner → Nat → Prop
  | .evolution _, 0 => (Chromosome.storage C).ranked s.config.populationSize < wordBound / 2
  | .evolution _, _ + 1 => (Chromosome.storage C).joined (2 * s.config.populationSize) < wordBound / 2 ∧
      (Chromosome.storage C).ranked (2 * s.config.populationSize) < wordBound / 2
  | .sampling, _ => True

/-- There is room for the archive, for the individuals of a generation, for the snapshots of all generations, and for
ranking. -/
structure HasRoom (s : Search σ C) (runner : Runner) : Prop where
  archive : (Chromosome.storage C).archived s.objectives.size < wordBound / 2
  individuals : s.config.populationSize * individualBytes C < wordBound / 2
  snapshots : (s.config.maxGenerations + 1) * snapshotBytes < wordBound / 2
  ranking : ∀ g ≤ s.config.maxGenerations, s.RoomAt runner g

/-- The room for ranking, as it is claimed. -/
def claimRoom (s : Search σ C) : Runner → Nat → Except Fault Unit
  | .evolution _, 0 => claim ((Chromosome.storage C).ranked s.config.populationSize)
  | .evolution _, _ + 1 => do
    claim ((Chromosome.storage C).joined (2 * s.config.populationSize))
    claim ((Chromosome.storage C).ranked (2 * s.config.populationSize))
  | .sampling, _ => .ok ()

theorem asks_claimRoom (s : Search σ C) (runner : Runner) (g : Nat) :
    Asks (s.claimRoom runner g) (s.RoomAt runner g) := by
  cases runner with
  | sampling => exact .ok ()
  | evolution policy =>
    cases g with
    | zero => exact asks_claim _
    | succ g => exact (asks_claim _).bind fun _ _ => asks_claim _

theorem asks_checkHistory (c : Config) :
    Asks (checkHistory c) ((c.maxGenerations + 1) * snapshotBytes < wordBound / 2) := by
  have hword : (c.maxGenerations + 1) * snapshotBytes < wordBound / 2 → c.maxGenerations + 1 < wordBound := fun h =>
    (Nat.le_mul_of_pos_right _ (by decide)).trans_lt (h.trans_le (Nat.div_le_self _ _))
  rw [checkHistory]
  split <;> rename_i hmax
  · exact (Asks.error Fault.isSize_overflow).congr (iff_of_false not_false fun h => Nat.not_le.2 (hword h) hmax)
  · exact asks_claim _

theorem asks_check {s : Search σ C} (h : s.config.validate = .ok ()) :
    Asks s.check ((Chromosome.storage C).archived s.objectives.size < wordBound / 2) := by
  rw [check, checkConfig, h]
  exact asks_claim _

end Search

/-! ## Sizes -/

theorem total_le {counts : List Nat} {bound : Nat} (h : ∀ n ∈ counts, n ≤ bound) :
    total counts ≤ counts.length * bound := by
  induction counts with
  | nil => exact Nat.zero_le _
  | cons n counts ih =>
    obtain ⟨hn, hcounts⟩ := List.forall_mem_cons.1 h
    have := ih hcounts
    rw [total_cons, List.length_cons, Nat.succ_mul]
    omega

namespace Archive

variable [Chromosome C] {a : Archive C}

/-- The sizes of the kept individuals add up to a word. -/
def SizesFit (a : Archive C) : Prop := total (a.tests.map Chromosome.size) < wordBound

theorem asks_averageLength (a : Archive C) : Asks a.averageLength a.SizesFit := by
  unfold averageLength
  dsimp only
  split <;> rename_i htests
  · refine (Asks.ok _).congr (iff_of_true trivial ?_)
    rw [SizesFit, List.isEmpty_iff.1 htests]
    exact (show total [] < wordBound by decide)
  · split <;> rename_i hsum
    · exact (Asks.ok _).congr (iff_of_true trivial hsum)
    · exact (Asks.error Fault.isSize_overflow).congr (iff_of_false not_false hsum)

theorem asks_snapshot (a : Archive C) (g active : Nat) : Asks (a.snapshot g active) a.SizesFit :=
  (asks_averageLength a).bind_pure

/-- Individuals of bounded size, of which as many fit as there are objectives. -/
theorem sizesFit_of_le {bound : Nat} (hsize : ∀ c : C, Chromosome.size c ≤ bound)
    (hbound : a.totalTargets * bound < wordBound) : a.SizesFit := by
  have htotal : total (a.tests.map Chromosome.size) ≤ (a.tests.map Chromosome.size).length * bound := by
    refine total_le fun n hn => ?_
    obtain ⟨c, -, rfl⟩ := List.mem_map.1 hn
    exact hsize c
  rw [List.length_map] at htotal
  have htests : a.tests.length ≤ a.totalTargets := (size_le_coveredTargets a).trans (coveredTargets_le_totalTargets a)
  exact (htotal.trans (Nat.mul_le_mul_right bound htests)).trans_lt hbound

end Archive

/-! ## Requests -/

/-- A request that is answered in every state, as long as there are words. -/
def Action.Answers (request : Action σ α) : Prop := ∀ state, Draw.Answers (request state)

theorem Action.Answers.bind {request : Action σ α} {next : α → Action σ β} (h : request.Answers)
    (hnext : ∀ a, (next a).Answers) : Action.Answers (request >>= next) :=
  fun state => (h state).bind fun x _ => hnext x.1 x.2

theorem Action.Answers.pure (a : α) : Action.Answers (σ := σ) (pure a) := fun state => Draw.Answers.pure (a, state)

namespace Collaborators

variable {k : Collaborators σ C} {n : Nat}

theorem answers_generateEach (h : k.generate.Answers) (n : Nat) : (k.generateEach n).Answers := by
  induction n with
  | zero => exact .pure []
  | succ n ih => exact h.bind fun c => ih.bind fun rest => .pure (c :: rest)

theorem answers_generateMany [Chromosome C] (h : k.generate.Answers)
    (hroom : n * individualBytes C < wordBound / 2) : (k.generateMany n).Answers := by
  have hreserve : Action.Answers (σ := σ) (liftM (reserve n (individualBytes C))) := by
    rw [reserve_eq_ok hroom]
    exact .pure ()
  exact hreserve.bind fun _ => answers_generateEach h n

/-- Offspring are what a breeder breeds, whatever is noted about that. -/
def Breeds [Chromosome C] (k : Collaborators σ C) (b : Breeder) : Prop :=
  ∀ population size state, ∃ note : List C → σ,
    k.offspring population size state = do
      let children ← b.offspring population size
      return (children, note children)

theorem answers_offspring [Chromosome C] {b : Breeder} (hbreeds : k.Breeds b) (hvaries : b.Varies C)
    {population : List C} (hpopulation : 2 ≤ population.length) (hroom : n * individualBytes C < wordBound / 2) :
    (k.offspring population n).Answers := by
  intro state
  obtain ⟨note, hoffspring⟩ := hbreeds population n state
  rw [hoffspring]
  exact (hvaries.answers_offspring hpopulation (reserve_eq_ok hroom)).bind fun children _ => .pure _

theorem length_offspring [Chromosome C] {b : Breeder} (hbreeds : k.Breeds b) {population offspring : List C}
    {state state' : σ} {source source' : Source}
    (h : k.offspring population n state source = .ok ((offspring, state'), source')) : offspring.length = n := by
  obtain ⟨note, hoffspring⟩ := hbreeds population n state
  rw [hoffspring] at h
  obtain ⟨⟨children, source₁⟩, hchildren, h⟩ := bind_eq_ok.1 h
  obtain ⟨hbred, -⟩ := ok_pair_inj h
  obtain ⟨rfl, -⟩ := Prod.mk.inj hbred
  exact (Breeder.bred_of_offspring ⟨source, source₁, hchildren⟩).length_eq

end Collaborators

/-! ## Ranked objectives -/

namespace Policy

variable {policy : Policy} {objectives : Array (Objective C)} {active : List Nat} {count : Nat}

/-- All positions that a policy may come to are those of objectives. -/
def InRange (count : Nat) : Policy → Prop
  | .all => True
  | .dynamic f => (∀ r ∈ f.roots, r < count ∧ r < f.dependents.size) ∧
      ∀ next ∈ f.dependents, ∀ d ∈ next, d < count ∧ d < f.dependents.size

/-- So are all that it ranks, and it has a mark for each. -/
def Ready (count : Nat) (active : List Nat) : Policy → Prop
  | .all => ∀ t ∈ active, t < count
  | .dynamic f => f.Ready count active

theorem exists_initial (h : policy.InRange count) :
    ∃ policy' active, policy.initial count = .ok (policy', active) ∧ policy'.Ready count active := by
  cases policy with
  | all => exact ⟨.all, _, rfl, fun t ht => List.mem_range.1 ht⟩
  | dynamic f =>
    obtain ⟨f', hinitial, hready⟩ := Frontier.Ready.exists_initial h.1 h.2
    exact ⟨.dynamic f', f.roots, bind_eq_ok.2 ⟨_, hinitial, rfl⟩, hready⟩

theorem exists_update (population : List C) (h : policy.Ready objectives.size active) :
    ∃ policy' active' added, policy.update objectives population active = .ok (policy', active', added) ∧
      policy'.Ready objectives.size active' ∧ ∀ t ∈ active', t < objectives.size := by
  cases policy with
  | all => exact ⟨.all, active, 0, rfl, h, h⟩
  | dynamic f =>
    have hcovered : ∀ d < objectives.size, ∃ b, coveredBy objectives population d = .ok b := fun d hd => by
      rw [coveredBy, Array.getElem?_eq_getElem hd]
      exact ⟨_, rfl⟩
    obtain ⟨f', active', added, hupdate, hready⟩ := Frontier.Ready.exists_update h hcovered
    exact ⟨.dynamic f', active', added, bind_eq_ok.2 ⟨_, hupdate, rfl⟩, hready, fun t ht => (hready.active_lt t ht).1⟩

end Policy

theorem Frontier.Controls.inRange {f : Frontier} {objectives : List BlockObjective} (h : f.Controls objectives) :
    (Policy.dynamic f).InRange objectives.length := by
  have hlt : ∀ {k : Nat} {o : BlockObjective}, objectives[k]? = some o →
      k < objectives.length ∧ k < f.dependents.size := fun {k o} ho => by
    have hk := (List.getElem?_eq_some_iff.1 ho).1
    exact ⟨hk, h.size_dependents ▸ hk⟩
  constructor
  · intro r hr
    obtain ⟨o, ho, -⟩ := (h.mem_roots r).1 hr
    exact hlt ho
  · intro next hnext d hd
    obtain ⟨i, hi, rfl⟩ := Array.mem_iff_getElem.1 hnext
    have ho := List.getElem?_eq_getElem (h.size_dependents ▸ hi)
    obtain ⟨next', hnext', hmem⟩ := h.mem_dependents i _ ho
    obtain rfl := Option.some.inj ((Array.getElem?_eq_getElem hi).symm.trans hnext')
    obtain ⟨o', ho', -⟩ := (hmem d).1 hd
    exact hlt ho'

end CoverSearch
