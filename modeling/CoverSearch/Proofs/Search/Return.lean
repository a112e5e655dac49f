import CoverSearch.Proofs.Search.Prepared

/-!
# When a search returns

A search that is equipped for its generations can fail for sizes only: the configured numbers of individuals and
generations have to fit into the address space, which validation does not ask for, and the sizes of the individuals kept
in the archive have to add up to a word.

* `Search.SizesFit`, `Search.Fits` : the sums of all snapshots of a run are words, and there is room for all else;
* `Search.Equipped.asks_opening`, `Search.Equipped.asks_advance` : what the initial population asks for, and the
  generations after it;
* `Search.Equipped.asks_run` : a run returns, or something is too big;
* `Search.run_returns_iff` : when a run returns.
-/

namespace CoverSearch

namespace Search

variable {σ C : Type} [Chromosome C] {s : Search σ C} {runner : Runner} {policy : Policy} {state : σ}
  {p : Progress σ C} {g left done : Nat}

/-! ## Sizes -/

/-- Generation `g` is started, and with this progress. -/
def Starts (s : Search σ C) (runner : Runner) (state : σ) : Nat → Progress σ C → Prop
  | 0, p => p = s.blank .all [] state
  | g + 1, p => s.progress runner state g = .ok p ∧
      ∀ k ≤ g, ∀ q, s.progress runner state k = .ok q → s.stop? (k + 1) q.archive = none

/-- The sizes of what is kept add up to a word after generation `g`, if that is run. -/
def SizesFitAt (s : Search σ C) (runner : Runner) (state : σ) (g : Nat) : Prop :=
  ∀ p, s.Starts runner state g p → ∀ a, s.offered runner g p = .ok a → a.SizesFit

/-- They do so after each generation of a run. -/
def SizesFit (s : Search σ C) (runner : Runner) (state : σ) : Prop :=
  ∀ g ≤ s.config.maxGenerations, s.SizesFitAt runner state g

/-- Generation `g`, if it is run, has room to rank, and the sizes of what is kept add up to a word after it. -/
def FitsAt (s : Search σ C) (runner : Runner) (state : σ) (g : Nat) : Prop :=
  ∀ p, s.Starts runner state g p → s.RoomAt runner g ∧ ∀ a, s.offered runner g p = .ok a → a.SizesFit

/-- What a run asks for that can be too much. -/
structure Fits (s : Search σ C) (runner : Runner) (state : σ) : Prop where
  archive : (Chromosome.storage C).archived s.objectives.size < wordBound / 2
  individuals : s.config.populationSize * individualBytes C < wordBound / 2
  snapshots : (s.config.maxGenerations + 1) * snapshotBytes < wordBound / 2
  generations : ∀ g ≤ s.config.maxGenerations, s.FitsAt runner state g

theorem Fits.sizesFit (h : s.Fits runner state) : s.SizesFit runner state :=
  fun g hg p hp => (h.generations g hg p hp).2

theorem HasRoom.fits (h : s.HasRoom runner) (hsizes : s.SizesFit runner state) : s.Fits runner state where
  archive := h.archive
  individuals := h.individuals
  snapshots := h.snapshots
  generations g hg p hp := ⟨h.ranking g hg, hsizes g hg p hp⟩

/-- No sum is too big for individuals of bounded size. -/
theorem sizesFit_of_le {bound : Nat} (hsize : ∀ c : C, Chromosome.size c ≤ bound)
    (hbound : s.objectives.size * bound < wordBound) : s.SizesFit runner state := by
  intro g _ p hp a ha
  have htotal : p.archive.totalTargets = s.objectives.size := by
    cases g with
    | zero =>
      rw [show p = s.blank .all [] state from hp]
      simp [blank, Archive.empty, Archive.totalTargets]
    | succ g => exact totalTargets_of_progress hp.1
  obtain ⟨⟨batch, q⟩, hask, ha⟩ := bind_eq_ok.1 ha
  obtain ⟨state', source', -, rfl⟩ := exists_of_ask hask
  obtain rfl := Except.ok.inj ha
  refine Archive.sizesFit_of_le hsize ?_
  show (p.archive.update _).totalTargets * bound < wordBound
  rwa [Archive.totalTargets_update, htotal]

/-! ## Whole runs -/

/-- Everything up to the initial population: a random search finds room for its history in advance. -/
def opening (s : Search σ C) : Runner → σ → Except Fault (Progress σ C)
  | .evolution policy, state => s.start policy state
  | .sampling, state => do
    checkHistory s.config
    s.first .sampling state

theorem run_eq_opening (s : Search σ C) (runner : Runner) (state : σ) : s.run runner state = do
    s.check
    let p ← s.opening runner state
    let (p, generations, stop) ← s.advance (s.generation runner) s.config.maxGenerations 0 p
    return result p generations stop := by
  cases runner with
  | evolution policy => rfl
  | sampling =>
    show (s.check >>= fun _ => checkHistory s.config >>= fun _ => s.first .sampling state >>= _) =
      s.check >>= fun _ => (checkHistory s.config >>= fun _ => s.first .sampling state) >>= _
    rw [bind_assoc]
    rfl

theorem ask_generateMany_eq_error (h : ¬ s.config.populationSize * individualBytes C < wordBound / 2)
    (p : Progress σ C) : ask (s.collaborators.generateMany s.config.populationSize) p = .error .capacity := by
  unfold ask Collaborators.generateMany
  rw [reserve_eq_error h]
  rfl

theorem first_eq_error (h : ¬ s.config.populationSize * individualBytes C < wordBound / 2) (state : σ) :
    s.first runner state = .error .capacity := by
  cases runner with
  | evolution policy =>
    rw [first, start, ask_generateMany_eq_error h]
    rfl
  | sampling =>
    rw [first, sampleBatch, ask_generateMany_eq_error h]
    rfl

theorem starts_zero (s : Search σ C) (runner : Runner) (state : σ) :
    s.Starts runner state 0 (s.blank .all [] state) := rfl

theorem fitsAt_iff {a : Archive C} (hp : s.Starts runner state g p) (ha : s.offered runner g p = .ok a) :
    s.FitsAt runner state g ↔ s.RoomAt runner g ∧ a.SizesFit := by
  have hunique : ∀ q, s.Starts runner state g q → q = p := by
    intro q hq
    cases g with
    | zero => exact hq.trans hp.symm
    | succ g => exact Except.ok.inj (hq.1.symm.trans hp.1)
  constructor
  · intro h
    obtain ⟨hroom, hsizes⟩ := h p hp
    exact ⟨hroom, hsizes a ha⟩
  · rintro ⟨hroom, hsizes⟩ q hq
    obtain rfl := hunique q hq
    refine ⟨hroom, fun b hb => ?_⟩
    rwa [← Except.ok.inj (ha.symm.trans hb)]

theorem forall_ge_iff {P : Nat → Prop} {k n : Nat} (hk : k ≤ n) :
    (P k ∧ ∀ g, k < g → g ≤ n → P g) ↔ ∀ g, k ≤ g → g ≤ n → P g := by
  constructor
  · rintro ⟨hP, hlater⟩ g hg hn
    rcases Nat.eq_or_lt_of_le hg with rfl | hg
    · exact hP
    · exact hlater g hg hn
  · intro h
    exact ⟨h k (Nat.le_refl k) hk, fun g hg => h g (Nat.le_of_lt hg)⟩

namespace Equipped
variable (h : s.Equipped runner)
include h

/-- The initial population. -/
theorem asks_opening (state : σ) : Asks (s.opening runner state)
    (s.config.populationSize * individualBytes C < wordBound / 2 ∧
      (s.config.maxGenerations + 1) * snapshotBytes < wordBound / 2 ∧ s.FitsAt runner state 0) := by
  by_cases hroom : s.config.populationSize * individualBytes C < wordBound / 2
  · rw [and_iff_right hroom]
    cases runner with
    | evolution policy =>
      obtain ⟨p, hstart, -, hoffered⟩ := h.exists_start hroom state rfl
      have hannounce : Asks (s.announce 0 p) p.archive.SizesFit := (p.archive.asks_snapshot 0 _).bind_pure.bind_pure
      show Asks (s.start policy state) _
      rw [hstart, fitsAt_iff (starts_zero s _ state) hoffered, and_left_comm]
      exact (asks_claimRoom s _ 0).bind fun _ _ => (asks_checkHistory s.config).bind fun _ _ => hannounce
    | sampling =>
      obtain ⟨p, hfirst, -, hoffered⟩ := h.exists_first hroom state rfl
      show Asks (checkHistory s.config >>= fun _ => s.first .sampling state) _
      rw [hfirst, fitsAt_iff (starts_zero s _ state) hoffered]
      exact (asks_checkHistory s.config).bind fun _ _ => asks_conclude s .sampling 0 p
  · have hfirst : s.first runner state = .error .capacity := first_eq_error hroom state
    have hfails : Asks (s.opening runner state) False := by
      cases runner with
      | evolution policy =>
        show Asks (s.first (.evolution policy) state) _
        rw [hfirst]
        exact .error Fault.isSize_capacity
      | sampling =>
        show Asks (checkHistory s.config >>= fun _ => s.first .sampling state) _
        rw [hfirst]
        refine ((asks_checkHistory s.config).bind fun _ _ => .error Fault.isSize_capacity).congr ?_
        exact iff_of_false And.right not_false
    exact hfails.congr (iff_of_false not_false fun h => hroom h.1)

theorem prepared_of_opening (hopening : s.opening runner state = .ok p) :
    s.progress runner state 0 = .ok p ∧ s.Prepared runner p := by
  obtain ⟨hroom, -⟩ := (h.asks_opening state).holds hopening
  cases runner with
  | evolution policy =>
    obtain ⟨p₁, hstart, hp₁, -⟩ := h.exists_start hroom state rfl
    obtain ⟨⟨⟩, hclaim, hreported⟩ := bind_eq_ok.1 (hstart.symm.trans hopening)
    obtain ⟨_, -, hannounce⟩ := bind_eq_ok.1 hreported
    exact ⟨hopening, hp₁.of_conclude (bind_eq_ok.2 ⟨(), hclaim, hannounce⟩)⟩
  | sampling =>
    obtain ⟨p₁, hfirst, hp₁, -⟩ := h.exists_first hroom state rfl
    obtain ⟨_, -, hprogress⟩ := bind_eq_ok.1 hopening
    exact ⟨hprogress, hp₁.of_conclude (hfirst.symm.trans hprogress)⟩

/-- Generation after generation the only question is whether all fits. -/
theorem asks_advance (hroom : s.config.populationSize * individualBytes C < wordBound / 2)
    (hprogress : s.progress runner state done = .ok p) (hp : s.Prepared runner p)
    (hgoes : ∀ k < done, ∀ q, s.progress runner state k = .ok q → s.stop? (k + 1) q.archive = none)
    (hleft : done + left = s.config.maxGenerations) :
    Asks (s.advance (s.generation runner) left done p)
      (∀ g, done < g → g ≤ s.config.maxGenerations → s.FitsAt runner state g) := by
  induction left generalizing done p with
  | zero => exact (Asks.ok _).congr (iff_of_true trivial fun g hg hmax => by omega)
  | succ left ih =>
    rw [advance]
    rcases hstop : s.stop? (done + 1) p.archive with _ | stop
    · have hgoes' : ∀ k < done + 1, ∀ q, s.progress runner state k = .ok q → s.stop? (k + 1) q.archive = none := by
        intro k hk q hq
        rcases Nat.lt_succ_iff_lt_or_eq.1 hk with hk | rfl
        · exact hgoes k hk q hq
        · obtain rfl := Except.ok.inj (hprogress.symm.trans hq)
          exact hstop
      have hstarts : s.Starts runner state (done + 1) p := ⟨hprogress, fun k hk => hgoes' k (Nat.lt_succ_of_le hk)⟩
      obtain ⟨p₁, hgeneration, hp₁, hoffered⟩ := h.exists_generation hroom hp (g := done)
      have hnext : Asks (s.generation runner (done + 1) p) (s.FitsAt runner state (done + 1)) := by
        rw [hgeneration, fitsAt_iff hstarts hoffered]
        exact asks_conclude s runner (done + 1) p₁
      refine (hnext.bind fun q hq => ?_).congr (forall_ge_iff (show done + 1 ≤ s.config.maxGenerations by omega))
      exact ih (progress_succ.2 ⟨p, hprogress, hq⟩) (hp₁.of_conclude (hgeneration.symm.trans hq)) hgoes' (by omega)
    · refine (Asks.ok _).congr (iff_of_true trivial fun g hg hmax p' hp' => ?_)
      -- no later generation is started
      obtain ⟨g, rfl⟩ : ∃ j, g = j + 1 := ⟨g - 1, by omega⟩
      cases (hp'.2 done (by omega) p hprogress).symm.trans hstop

/-- A run returns if all fits, and otherwise fails for a size. -/
theorem asks_run (state : σ) : Asks (s.run runner state) (s.Fits runner state) := by
  have hrest : ∀ p, s.opening runner state = .ok p →
      Asks (s.advance (s.generation runner) s.config.maxGenerations 0 p)
        (∀ g, 0 < g → g ≤ s.config.maxGenerations → s.FitsAt runner state g) := by
    intro p hp
    obtain ⟨hroom, -⟩ := (h.asks_opening state).holds hp
    obtain ⟨hprogress, hprepared⟩ := h.prepared_of_opening hp
    exact h.asks_advance hroom hprogress hprepared (fun k hk => absurd hk (Nat.not_lt_zero k)) (Nat.zero_add _)
  rw [run_eq_opening]
  refine ((asks_check h.validate_eq).bind fun _ _ => (h.asks_opening state).bind fun p hp =>
    (hrest p hp).bind_pure).congr ⟨?_, ?_⟩
  · rintro ⟨harchive, ⟨hindividuals, hsnapshots, hzero⟩, hlater⟩
    exact ⟨harchive, hindividuals, hsnapshots,
      fun g hg => (forall_ge_iff (Nat.zero_le _)).1 ⟨hzero, hlater⟩ g (Nat.zero_le g) hg⟩
  · intro hfits
    exact ⟨hfits.archive, ⟨hfits.individuals, hfits.snapshots, hfits.generations 0 (Nat.zero_le _)⟩,
      fun g _ hg => hfits.generations g hg⟩

/-- Too many generations, found out after the initial population is ranked. -/
theorem evolve_eq_error (hrunner : runner = .evolution policy)
    (harchive : (Chromosome.storage C).archived s.objectives.size < wordBound / 2)
    (hindividuals : s.config.populationSize * individualBytes C < wordBound / 2) (hroom : s.RoomAt runner 0) {e : Fault}
    (he : checkHistory s.config = .error e) (state : σ) : s.run runner state = .error e := by
  subst hrunner
  obtain ⟨⟨⟩, hcheck⟩ := (asks_check h.validate_eq).returns harchive
  obtain ⟨⟨⟩, hclaim⟩ := (asks_claimRoom s _ 0).returns hroom
  obtain ⟨p, hstart, -⟩ := h.exists_start hindividuals state rfl
  rw [run_eq_opening, hcheck]
  show s.start policy state >>= _ = _
  rw [hstart, hclaim, he]
  rfl

end Equipped

/-- What a run that returns has found room for, whatever the rule that lists grow by. -/
structure FoundRoom (s : Search σ C) (runner : Runner) (state : σ) : Prop where
  individuals : s.config.populationSize * individualBytes C < wordBound / 2
  snapshots : (s.config.maxGenerations + 1) * snapshotBytes < wordBound / 2
  /-- A population together with its offspring, if some are bred. -/
  joined : ∀ policy p, runner = .evolution policy → s.Starts runner state 1 p →
    2 * s.config.populationSize * individualBytes C < wordBound / 2

theorem Fits.foundRoom (h : s.Fits runner state) (hgenerations : 1 ≤ s.config.maxGenerations) :
    s.FoundRoom runner state where
  individuals := h.individuals
  snapshots := h.snapshots
  joined := by
    rintro policy p rfl hp
    obtain ⟨⟨hjoined, -⟩, -⟩ := h.generations 1 hgenerations p hp
    exact ((Chromosome.storage C).le_joined _).trans_lt hjoined

theorem one_le_maxGenerations {c : Config} (h : c.validate = .ok ()) : 1 ≤ c.maxGenerations := by
  rw [Config.validate] at h
  split at h
  · cases h
  split at h
  · cases h
  · omega

/-! ## Main statement -/

/-- A search with a valid configuration, objectives without a NaN, a generator that does not fail, and offspring bred as
configured of individuals whose variation does not fail: by rank on all objectives, on the frontier of any analysis, or
by fresh individuals. If there is room for the configured numbers it returns just if the sizes of what is kept add up to
a word after every generation that is run, and without room for the individuals, the snapshots, or a population together
with the offspring bred of it, it does not return. It fails for nothing else: no selection is among fewer than two, no
rate is no probability, and no position is out of range, also among the rows, columns and slots of a survival, where
nothing asks for that. -/
theorem run_returns_iff (s : Search σ C) (runner : Runner) (h : s.Equipped runner) (state : σ) :
    (s.HasRoom runner → ((∃ r, s.run runner state = .ok r) ↔ s.SizesFit runner state)) ∧
    (∀ r, s.run runner state = .ok r → s.FoundRoom runner state ∧ s.SizesFit runner state) ∧
    (∀ e, s.run runner state = .error e → e.IsSize) ∧
    (∀ active size population,
      survive? s.objectives active size population = survive s.objectives active size population) ∧
    ∀ records a, Analysis.ofRecords records = .ok a → ∃ f, Frontier.ofAnalysis a a.objectives = .ok f := by
  have hrun := h.asks_run state
  refine ⟨fun hroom => ?_, fun r hr => ?_, fun e he => hrun.isSize he,
    fun active size population => survive?_eq s.objectives active size population, fun records a ha => ?_⟩
  · rw [hrun.returns_iff]
    exact ⟨Fits.sizesFit, hroom.fits⟩
  · have hfits := hrun.holds hr
    exact ⟨hfits.foundRoom (one_le_maxGenerations h.validate_eq), hfits.sizesFit⟩
  · obtain ⟨f, hf, -⟩ := Frontier.controls_ofAnalysis (Analysis.sound_of_ofRecords ha)
    exact ⟨f, hf⟩

/-- A switch, on or off. -/
structure Switch where
  on : Bool
deriving DecidableEq

/-- One byte each; a grown list has twice the room it needs and eight items at least, and a row of fitness values takes
24 bytes. -/
def Switch.storage : Storage where
  individual := 1
  joined n := max 8 (2 * n)
  ranked n := 24 * n
  archived n := 8 * n
  le_joined n := by omega

instance : Chromosome Switch where
  storage := Switch.storage
  size _ := 1

/-- A search among copies of a switch that is off for one that is on. -/
def switching (generations : Nat) : Search Unit Switch where
  objectives := #[{ fitness := fun c => if c.on then 0 else 1 }]
  collaborators :=
    { generate := pure ⟨false⟩
      offspring := fun population size state => do
        return (← Config.balanced.breeder.offspring population size, state)
      execute := fun population state => (population, state)
      length_execute := fun _ _ => rfl }
  config := { populationSize := 3, maxGenerations := generations }

theorem equipped_switching {generations : Nat} (h : (switching generations).config.validate = .ok ()) :
    (switching generations).Equipped (.evolution .all) where
  validate_eq := h
  nanFree := by
    intro o ho c
    obtain rfl := Array.mem_singleton.1 ho
    show (if c.on then (0 : Float) else 1).isNaN = false
    cases c.on <;> decide +kernel
  generate := .pure _
  serves := .all
  breeds := fun _ _ => ⟨fun _ _ _ => ⟨fun _ => (), rfl⟩, fun c d => .pure (c, d), fun c => .pure c⟩

theorem sizesFit_switching (generations : Nat) : (switching generations).SizesFit (.evolution .all) () := by
  have hsize : ∀ c : Switch, Chromosome.size c ≤ 1 := fun _ => Nat.le_refl 1
  exact sizesFit_of_le hsize (show 1 * 1 < wordBound by decide)

theorem roomAt_switching (generations g : Nat) : (switching generations).RoomAt (.evolution .all) g := by
  have hranked : 24 * (2 * 3) < wordBound / 2 := by decide
  cases g with
  | zero => exact (show 24 * 3 < wordBound / 2 by decide)
  | succ g => exact ⟨(show max 8 (2 * (2 * 3)) < wordBound / 2 by decide), hranked⟩

/-- A valid configuration of a few generations, of which all are run. -/
theorem run_returns_iff_switching : (switching 5).Equipped (.evolution .all) ∧ (switching 5).HasRoom (.evolution .all) ∧
    ∃ r, (switching 5).run (.evolution .all) () = .ok r := by
  have hequipped : (switching 5).Equipped (.evolution .all) := equipped_switching (by
    rw [← toOption_eq_some]
    decide +kernel)
  have hroom : (switching 5).HasRoom (.evolution .all) :=
    ⟨by decide, by decide, by decide, fun g _ => roomAt_switching 5 g⟩
  obtain ⟨hreturns, -⟩ := run_returns_iff (switching 5) (.evolution .all) hequipped ()
  exact ⟨hequipped, hroom, (hreturns hroom).2 (sizesFit_switching 5)⟩

/-- The greatest number of generations is valid, and there is room for all individuals, but one generation more cannot
be counted. -/
theorem not_returns_switching : (switching 18446744073709551615).Equipped (.evolution .all) ∧
    (switching 18446744073709551615).SizesFit (.evolution .all) () ∧
    (∀ g, (switching 18446744073709551615).RoomAt (.evolution .all) g) ∧
    (switching 18446744073709551615).run (.evolution .all) () = .error .overflow := by
  have hequipped : (switching 18446744073709551615).Equipped (.evolution .all) := equipped_switching (by
    rw [← toOption_eq_some]
    decide +kernel)
  have hroom := roomAt_switching 18446744073709551615
  exact ⟨hequipped, sizesFit_switching 18446744073709551615, hroom,
    hequipped.evolve_eq_error rfl (by decide) (by decide) (hroom 0) (if_pos (by decide)) ()⟩

end Search

end CoverSearch
