import CoverSearch.Proofs.Archive.Tests
import CoverSearch.Proofs.Search.Tracing

/-!
# The tests that a search reports

Whatever a search ranks, breeds and discards, and whenever it stops: its tests are those that the history of all that it
has executed asks for.

* `Search.ReportsOf.isSuite` : a report on some executed individuals;
* `Search.reports_isSuite` : the result for every run.
-/

namespace CoverSearch.Search

variable {σ C : Type} [Chromosome C] [PartialEquivBEq C] {s : Search σ C} {executed : List C}

theorem ReportsOf.isSuite (hequal : Archive.RespectsEq s.objectives.toList) {r : Result C} {state : σ}
    (h : s.ReportsOf (r, state) executed) : Archive.IsSuite s.objectives.toList executed r.tests ∧
      r.coveredTargets = s.objectives.toList.countP fun o => executed.any fun c => o.fitness c == 0 := by
  obtain ⟨p, g, stop, hr, harchive⟩ := h
  obtain ⟨rfl, -⟩ := Prod.mk.inj hr
  show Archive.IsSuite _ _ p.archive.tests ∧ p.archive.coveredTargets = _
  rw [harchive]
  exact ⟨Archive.isSuite_tests hequal executed, Archive.coveredTargets_update_empty _ executed⟩

/-! ## Main statement -/

/-- A search in which equal individuals have the same size and cover the same objectives. If it returns, under whatever
policy or as a random search, so does the search that records what it executes, with the same result. Of all that was
executed, by the initial population and every generation, the tests of the result are a suite: there is a test for an
objective if any individual has covered it, and then one of the least size among these; no two tests are equal, and each
is what the archive stores for some objective. The covered objectives are those that any individual has covered. -/
theorem reports_isSuite (s : Search σ C) (hequal : Archive.RespectsEq s.objectives.toList) (state : σ) :
    (∀ policy r state', s.evolve policy state = .ok (r, state') → ∃ executed,
      s.traced.evolve policy (state, []) = .ok (r, (state', executed)) ∧ s.ReportsOf (r, state') executed ∧
      Archive.IsSuite s.objectives.toList executed r.tests ∧
      r.coveredTargets = s.objectives.toList.countP fun o => executed.any fun c => o.fitness c == 0) ∧
    ∀ r state', s.sample state = .ok (r, state') → ∃ executed,
      s.traced.sample (state, []) = .ok (r, (state', executed)) ∧ s.ReportsOf (r, state') executed ∧
      Archive.IsSuite s.objectives.toList executed r.tests ∧
      r.coveredTargets = s.objectives.toList.countP fun o => executed.any fun c => o.fitness c == 0 := by
  constructor
  · intro policy r state' h
    obtain ⟨executed, htrace, hreports⟩ := exists_trace_of_evolve h
    exact ⟨executed, htrace, hreports, hreports.isSuite hequal⟩
  · intro r state' h
    obtain ⟨executed, htrace, hreports⟩ := exists_trace_of_sample h
    exact ⟨executed, htrace, hreports, hreports.isSuite hequal⟩

/-- A list of steps. -/
structure Script where
  steps : List Nat
deriving DecidableEq

instance : Chromosome Script where
  storage := .tight 24
  size c := c.steps.length

/-- To take some step. -/
def Script.taking (step : Nat) : Objective Script := { fitness := fun c => if c.steps.contains step then 0 else 1 }

/-- A search whose executor takes the idle steps `0` out of a script. -/
def shortening : Search Unit Script where
  objectives := #[Script.taking 1, Script.taking 2, Script.taking 3]
  collaborators :=
    { generate := pure ⟨[0, 1, 2]⟩
      offspring := fun _ _ => pure [⟨[2, 0]⟩]
      execute := fun population state => (population.map fun c => ⟨c.steps.filter (· != 0)⟩, state)
      length_execute := fun _ _ => List.length_map _ }
  config := { populationSize := 2, maxGenerations := 1 }

/-- The fresh scripts are equal, and one of them is a test for the first objective. -/
theorem reports_isSuite_shortening : Archive.RespectsEq shortening.objectives.toList ∧ ∃ r,
    shortening.evolve .all () = .ok (r, ()) ∧ r.tests = [⟨[1, 2]⟩, ⟨[2]⟩] ∧ r.coveredTargets = 2 ∧
    Archive.IsSuite shortening.objectives.toList [⟨[1, 2]⟩, ⟨[1, 2]⟩, ⟨[2]⟩] r.tests := by
  have hequal : Archive.RespectsEq shortening.objectives.toList :=
    ⟨fun c d h => congrArg Chromosome.size (eq_of_beq h), fun c d h _ _ => by rw [eq_of_beq h]⟩
  have hrun : ((shortening.evolve .all ()).toOption.bind fun r => (shortening.traced.evolve .all ((), [])).toOption.map
      fun r' => (r.1.tests, r.1.coveredTargets, r'.2.2)) =
        some ([⟨[1, 2]⟩, ⟨[2]⟩], 2, [⟨[1, 2]⟩, ⟨[1, 2]⟩, ⟨[2]⟩]) := by decide +kernel
  obtain ⟨⟨r, _⟩, hr, hrun⟩ := Option.bind_eq_some_iff.1 hrun
  obtain ⟨r', hr', hrun⟩ := Option.map_eq_some_iff.1 hrun
  rw [toOption_eq_some] at hr hr'
  obtain ⟨htests, hrest⟩ := Prod.mk.inj hrun
  obtain ⟨hcovered, hexecuted⟩ := Prod.mk.inj hrest
  obtain ⟨hevolve, -⟩ := reports_isSuite shortening hequal ()
  obtain ⟨executed, htrace, -, hsuite, -⟩ := hevolve .all r () hr
  obtain rfl := Except.ok.inj (htrace.symm.trans hr')
  exact ⟨hequal, r, hr, htests, hcovered, hexecuted ▸ hsuite⟩

end CoverSearch.Search
