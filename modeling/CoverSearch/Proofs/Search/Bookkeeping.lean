import CoverSearch.Proofs.Search.Suite
import Mathlib.Order.Bounds.Basic

/-!
# What a search reports about itself

A search runs all generations before the first one that is due to be left out, and says why it left that out. Its
history is the account of these generations, and the listeners of an evolution have heard all of it.

* `Search.StopDue` : when a generation is due to be left out;
* `Search.KeepsBooks` : what the numbers of a result say; `Search.Ends.keepsBooks` : so they do where a course is left;
* `Search.overheard` : a search whose listeners write down what they are told;
* `Search.run_keepsBooks` : every run that returns.
-/

namespace CoverSearch

variable {σ C : Type} {state state' : σ} {g k : Nat} {e : Snapshot}

/-! ## Listeners -/

namespace Collaborators

/-- The calls of all listeners in turn. -/
def calls (k : Collaborators σ C) (e : Snapshot) : List (Nat × Snapshot) :=
  (List.range k.listeners.length).map fun i => (i, e)

/-- Collaborators whose listeners write down their positions and what they are told. -/
def overheard (k : Collaborators σ C) : Collaborators (σ × List (Nat × Snapshot)) C where
  generate := Action.traced k.generate
  offspring population size := Action.traced (k.offspring population size)
  execute := fun population (state, heard) =>
    let (executed, state) := k.execute population state
    (executed, (state, heard))
  length_execute := fun population (state, _) => k.length_execute population state
  listeners := k.listeners.mapIdx fun i listener e (state, heard) => (listener e state, heard ++ [(i, e)])

theorem notify_overheard (k : Collaborators σ C) (e : Snapshot) (state : σ) (heard : List (Nat × Snapshot)) :
    k.overheard.notify e (state, heard) = (k.notify e state, heard ++ k.calls e) := by
  unfold notify overheard calls
  induction k.listeners using List.reverseRecOn with
  | nil => simp
  | append_singleton listeners listener ih =>
    simp only [List.mapIdx_concat, List.foldl_append, List.foldl_cons, List.foldl_nil, List.length_append,
      List.length_singleton, List.range_succ, List.map_append, List.map_cons, List.map_nil, ih, List.append_assoc]

end Collaborators

namespace Search

/-- The same search with listeners that write down what they are told. -/
def overheard (s : Search σ C) : Search (σ × List (Nat × Snapshot)) C :=
  { s with collaborators := s.collaborators.overheard }

theorem recorded_overheard (s : Search σ C) : s.Recorded s.overheard (fun _ => []) s.collaborators.calls where
  objectives_eq := rfl
  config_eq := rfl
  cancelled_eq := rfl
  source_eq := rfl
  generate := Action.traces_traced _
  offspring _ _ := Action.traces_traced _
  execute_eq population state record := by
    rw [List.append_nil]
    rfl
  notify_eq := s.collaborators.notify_overheard

variable [Chromosome C] {s : Search σ C} {runner : Runner} {p q : Progress σ C} {r : Result C} {stop : Option Stop}

/-! ## Stops -/

/-- A generation of the budget is due to be left out: the search has been cancelled before it, or it stops on full
coverage and the archive was full after the generation before. -/
def StopDue (s : Search σ C) (runner : Runner) (state : σ) (g : Nat) : Prop :=
  1 ≤ g ∧ g ≤ s.config.maxGenerations ∧ (s.cancelled g = true ∨ s.config.stopOnFullCoverage = true ∧
    ∃ p, s.progress runner state (g - 1) = .ok p ∧ p.archive.coveredTargets = p.archive.totalTargets)

omit [Chromosome C] in
theorem stop?_eq_none {archive : Archive C} : s.stop? g archive = none ↔
    s.cancelled g = false ∧ (s.config.stopOnFullCoverage = true → archive.coveredTargets ≠ archive.totalTargets) := by
  unfold stop?
  cases s.cancelled g <;> cases s.config.stopOnFullCoverage <;> simp

theorem stopDue_succ (hp : s.progress runner state g = .ok p) (hg : g < s.config.maxGenerations) :
    s.StopDue runner state (g + 1) ↔ s.stop? (g + 1) p.archive ≠ none := by
  have hfull : (∃ p, s.progress runner state g = .ok p ∧ p.archive.coveredTargets = p.archive.totalTargets) ↔
      p.archive.coveredTargets = p.archive.totalTargets := by
    simp [hp]
  unfold StopDue
  rw [ne_eq, stop?_eq_none, Nat.add_sub_cancel, hfull]
  cases s.cancelled (g + 1) <;> simp <;> omega

/-! ## The books of a run -/

/-- What the numbers of a result say. -/
structure KeepsBooks (s : Search σ C) (runner : Runner) (state : σ) (r : Result C) : Prop where
  stopped : ∀ g, IsLeast {g | s.StopDue runner state g} g →
    r.generations = g - 1 ∧ r.cancelled = s.cancelled g ∧ r.stoppedEarly = !r.cancelled
  finished : (∀ g, ¬ s.StopDue runner state g) →
    r.generations = s.config.maxGenerations ∧ r.cancelled = false ∧ r.stoppedEarly = false
  length_history : r.history.length = r.generations + 1
  entries : ∀ (i : Nat) (e : Snapshot), r.history[i]? = some e → e.generation = i ∧
    e.totalTargets = s.objectives.size ∧ e.archiveSize ≤ e.coveredTargets ∧ e.coveredTargets ≤ e.totalTargets
  covered_mono : r.history.Pairwise fun e e' => e.coveredTargets ≤ e'.coveredTargets
  last : ∃ e, r.history.getLast? = some e ∧ e.coveredTargets = r.coveredTargets ∧ e.totalTargets = r.totalTargets ∧
    e.coverage = r.coverage ∧ e.archiveSize = r.tests.length

namespace Ends
variable (h : s.Ends runner state g p stop)
include h

theorem not_stopDue {k : Nat} (hk : k ≤ g) : ¬ s.StopDue runner state k := by
  intro hdue
  have hone := hdue.1
  have hmax := hdue.2.1
  obtain ⟨k, rfl⟩ : ∃ j, k = j + 1 := ⟨k - 1, by omega⟩
  obtain ⟨q, hq, -⟩ := exists_progress_of_le h.progress_eq (show k ≤ g by omega)
  exact (stopDue_succ hq (by omega)).1 hdue (h.goes_on k (by omega) q hq)

theorem stopped (hleast : IsLeast {g | s.StopDue runner state g} k) :
    g + 1 = k ∧ stop = if s.cancelled k = true then some .cancelled else some .covered := by
  have hlt : g < k := by
    by_contra hge
    exact h.not_stopDue (by omega) hleast.1
  have hmax : k ≤ s.config.maxGenerations := hleast.1.2.1
  obtain ⟨hend, -⟩ | ⟨hend, hne, hstop⟩ := h.ends
  · omega
  · have hle : k ≤ g + 1 := hleast.2 ((stopDue_succ h.progress_eq hend).2 (hstop ▸ hne))
    obtain rfl : g + 1 = k := by omega
    refine ⟨rfl, ?_⟩
    rw [← hstop] at hne ⊢
    unfold stop? at hne ⊢
    split <;> simp_all

theorem finished (hnone : ∀ k, ¬ s.StopDue runner state k) : g = s.config.maxGenerations ∧ stop = none := by
  obtain hend | ⟨hend, hne, hstop⟩ := h.ends
  · exact hend
  · exact absurd ((stopDue_succ h.progress_eq hend).2 (hstop ▸ hne)) (hnone (g + 1))

end Ends

theorem covered_le_of_extends (h : Extends p q) : p.archive.coveredTargets ≤ q.archive.coveredTargets := by
  obtain ⟨batch, hbatch⟩ := h.archive_eq
  rw [hbatch]
  exact Archive.coveredTargets_le_update _ _

theorem totalTargets_of_progress (h : s.progress runner state g = .ok p) :
    p.archive.totalTargets = s.objectives.size := by
  obtain ⟨executed, hexecuted⟩ := exists_archive_of_progress h
  rw [hexecuted, Archive.totalTargets_update]
  simp [Archive.empty, Archive.totalTargets]

theorem covered_mono_of_progress (h : s.progress runner state g = .ok p) :
    p.history.Pairwise fun e e' => e.coveredTargets ≤ e'.coveredTargets := by
  rw [List.pairwise_iff_getElem]
  intro i j hi hj hij
  obtain ⟨q, hq, -, he⟩ := snapshot_of_progress h (List.getElem?_eq_getElem hi)
  obtain ⟨q', hq', -, he'⟩ := snapshot_of_progress h (List.getElem?_eq_getElem hj)
  obtain ⟨_, -, he⟩ := exists_of_snapshot he
  obtain ⟨_, -, he'⟩ := exists_of_snapshot he'
  rw [he, he']
  exact covered_le_of_extends (extends_of_progress hq hq' hij.le)

theorem Ends.keepsBooks (h : s.Ends runner state r.generations p stop)
    (hr : result p r.generations stop = (r, state')) : s.KeepsBooks runner state r := by
  have hhistory := h.progress_eq
  obtain ⟨hrhistory, hcancelled, hstopped, -, -⟩ := fields_of_result hr
  refine ⟨fun k hk => ?_, fun hnone => ?_, ?_, fun i e he => ?_, ?_, ?_⟩
  · obtain ⟨hg, rfl⟩ := h.stopped hk
    rw [hcancelled, hstopped]
    refine ⟨by omega, ?_⟩
    cases s.cancelled k <;> decide
  · obtain ⟨hg, rfl⟩ := h.finished hnone
    exact ⟨hg, hcancelled, hstopped⟩
  · rw [hrhistory]
    exact length_history hhistory
  · rw [hrhistory] at he
    obtain ⟨q, hq, -, hsnapshot⟩ := snapshot_of_progress hhistory he
    obtain ⟨averageLength, -, rfl⟩ := exists_of_snapshot hsnapshot
    exact ⟨rfl, totalTargets_of_progress hq, Archive.size_le_coveredTargets _, Archive.coveredTargets_le_totalTargets _⟩
  · rw [hrhistory]
    exact covered_mono_of_progress hhistory
  · obtain ⟨e, he, hsnapshot⟩ := getLast?_history hhistory
    obtain ⟨averageLength, -, rfl⟩ := exists_of_snapshot hsnapshot
    refine ⟨_, hrhistory ▸ he, ?_⟩
    rw [← (Prod.mk.inj hr).1]
    exact ⟨rfl, rfl, rfl, rfl⟩

/-! ## Main statement -/

/-- A run that returns, of whatever kind and however it is cancelled. If a generation of the budget is due to be left
out, the first such generation is the first that was not run, and the flags say why; otherwise the budget has been
spent. The history has an entry for every generation with its number, the same number of targets, never fewer of them
covered than before, and at most one test for each that is covered. Its last entry agrees with the result. An evolution
has the same result if its listeners write down what they hear, and then every one of them has heard every entry once,
in turn. -/
theorem run_keepsBooks (s : Search σ C) (runner : Runner) (state : σ) (r : Result C) (state' : σ)
    (h : s.run runner state = .ok (r, state')) : s.KeepsBooks runner state r ∧
      ∀ policy, runner = .evolution policy → s.overheard.evolve policy (state, []) =
        .ok (r, (state', r.history.flatMap s.collaborators.calls)) := by
  obtain ⟨p, stop, hends, hr⟩ := exists_ends_of_run h
  refine ⟨hends.keepsBooks hr, ?_⟩
  rintro policy rfl
  obtain ⟨rounds, -, hhistory, hrecord⟩ := (recorded_overheard s).run h
  have hheard := hrecord []
  rw [List.nil_append] at hheard
  rw [hhistory, List.flatMap_map]
  exact hheard

/-- A search whose offspring covers what the initial population does not, with budget left after that. -/
def twoSteps : Search Unit Script where
  objectives := #[Script.taking 1, Script.taking 2]
  collaborators :=
    { generate := pure ⟨[1]⟩
      offspring := fun _ _ => pure [⟨[2]⟩]
      execute := fun population state => (population, state)
      length_execute := fun _ _ => rfl
      listeners := [fun _ state => state] }
  config := { populationSize := 2, maxGenerations := 3, stopOnFullCoverage := true }

theorem run_keepsBooks_twoSteps : ∃ r, twoSteps.run (.evolution .all) () = .ok (r, ()) ∧ r.generations = 1 ∧
    r.stoppedEarly = true ∧ twoSteps.KeepsBooks (.evolution .all) () r ∧
    twoSteps.overheard.evolve .all ((), []) = .ok (r, ((), r.history.flatMap fun e => [(0, e)])) := by
  have hrun : (twoSteps.run (.evolution .all) ()).toOption.map (fun r => (r.1.generations, r.1.stoppedEarly)) =
      some (1, true) := by
    decide +kernel
  obtain ⟨⟨r, _⟩, hr, hrun⟩ := Option.map_eq_some_iff.1 hrun
  rw [toOption_eq_some] at hr
  obtain ⟨hgenerations, hstopped⟩ := Prod.mk.inj hrun
  obtain ⟨hbooks, hheard⟩ := run_keepsBooks twoSteps (.evolution .all) () r () hr
  exact ⟨r, hr, hgenerations, hstopped, hbooks, hheard .all rfl⟩

end Search

end CoverSearch
