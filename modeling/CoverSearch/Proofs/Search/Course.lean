import CoverSearch.Proofs.Archive.Tests
import CoverSearch.Proofs.Search.Recording

/-!
# The course of a search

What a search has after generation `g` depends neither on its budget nor on why it stops: these only say which `g` is
the last one. Every generation leaves one more snapshot, of the archive that it leaves, so the histories of a course
grow by one entry each and the archives never lose a cover.

* `Runner` : evolution under a policy, and random search; `Search.run` : a whole search;
* `Search.progress` : the progress after each generation, however many there are;
* `Search.Ends` : where a run leaves its course; `Search.exists_ends_of_run` : every run that returns does so;
* `Search.chronicles_of_generation` : what one generation adds; `Search.extends_of_progress` : what a part of a course
  adds;
* `Search.snapshot_of_progress` : the entries of a history.
-/

namespace CoverSearch

/-- The kinds of searches. -/
inductive Runner
  | evolution (policy : Policy)
  | sampling

namespace Search

variable {σ C : Type} [Chromosome C] {s : Search σ C} {runner : Runner} {policy : Policy} {state state' : σ}
  {p p' q : Progress σ C} {r : Result C} {stop : Option Stop} {g i left done : Nat} {batch : List C} {e : Snapshot}

/-! ## Runs -/

/-- A whole search. -/
def run (s : Search σ C) : Runner → σ → Except Fault (Result C × σ)
  | .evolution policy => s.evolve policy
  | .sampling => s.sample

/-- The progress with the initial population. -/
def first (s : Search σ C) : Runner → σ → Except Fault (Progress σ C)
  | .evolution policy, state => s.start policy state
  | .sampling, state => s.sampleBatch 0 (s.blank .all (List.range s.objectives.size) state)

/-- Generation `g`. -/
def generation (s : Search σ C) : Runner → Nat → Progress σ C → Except Fault (Progress σ C)
  | .evolution _ => s.step
  | .sampling => s.sampleBatch

/-- The progress after generation `g`, had the search the budget for it and never stopped. -/
def progress (s : Search σ C) (runner : Runner) (state : σ) : (g : Nat) → Except Fault (Progress σ C)
  | 0 => s.first runner state
  | g + 1 => do s.generation runner (g + 1) (← progress s runner state g)

/-- What is refused before a search starts; evolution leaves room for its history only after the initial population. -/
def checks (s : Search σ C) : Runner → Except Fault Unit
  | .evolution _ => s.check
  | .sampling => do
    s.check
    checkHistory s.config

theorem run_eq_ok {x : Result C × σ} : s.run runner state = .ok x ↔ s.checks runner = .ok () ∧ ∃ p q g stop,
    s.first runner state = .ok p ∧
      s.advance (s.generation runner) s.config.maxGenerations 0 p = .ok (q, g, stop) ∧ result q g stop = x := by
  constructor
  · intro h
    cases runner with
    | evolution policy =>
      obtain ⟨⟨⟩, hcheck, h⟩ := bind_eq_ok.1 h
      obtain ⟨p, hfirst, h⟩ := bind_eq_ok.1 h
      obtain ⟨⟨q, g, stop⟩, hadvance, h⟩ := bind_eq_ok.1 h
      exact ⟨hcheck, p, q, g, stop, hfirst, hadvance, Except.ok.inj h⟩
    | sampling =>
      obtain ⟨⟨⟩, hcheck, h⟩ := bind_eq_ok.1 h
      obtain ⟨⟨⟩, hhistory, h⟩ := bind_eq_ok.1 h
      obtain ⟨p, hfirst, h⟩ := bind_eq_ok.1 h
      obtain ⟨⟨q, g, stop⟩, hadvance, h⟩ := bind_eq_ok.1 h
      exact ⟨bind_eq_ok.2 ⟨_, hcheck, hhistory⟩, p, q, g, stop, hfirst, hadvance, Except.ok.inj h⟩
  · rintro ⟨hchecks, p, q, g, stop, hfirst, hadvance, rfl⟩
    cases runner with
    | evolution policy =>
      refine bind_eq_ok.2 ⟨_, hchecks, bind_eq_ok.2 ⟨_, hfirst, ?_⟩⟩
      exact bind_eq_ok.2 ⟨_, hadvance, rfl⟩
    | sampling =>
      obtain ⟨_, hcheck, hhistory⟩ := bind_eq_ok.1 hchecks
      refine bind_eq_ok.2 ⟨_, hcheck, bind_eq_ok.2 ⟨_, hhistory, bind_eq_ok.2 ⟨_, hfirst, ?_⟩⟩⟩
      exact bind_eq_ok.2 ⟨_, hadvance, rfl⟩

theorem progress_succ : s.progress runner state (g + 1) = .ok q ↔
    ∃ p, s.progress runner state g = .ok p ∧ s.generation runner (g + 1) p = .ok q := bind_eq_ok

/-- A search goes on until some generation, where the budget is spent or a stop is due. -/
structure Ends (s : Search σ C) (runner : Runner) (state : σ) (g : Nat) (p : Progress σ C) (stop : Option Stop) :
    Prop where
  progress_eq : s.progress runner state g = .ok p
  goes_on : ∀ k < g, ∀ q, s.progress runner state k = .ok q → s.stop? (k + 1) q.archive = none
  ends : g = s.config.maxGenerations ∧ stop = none ∨
    g < s.config.maxGenerations ∧ stop ≠ none ∧ s.stop? (g + 1) p.archive = stop

theorem ends_of_advance (hp : s.progress runner state done = .ok p)
    (hgoes : ∀ k < done, ∀ q, s.progress runner state k = .ok q → s.stop? (k + 1) q.archive = none)
    (hleft : done + left = s.config.maxGenerations)
    (h : s.advance (s.generation runner) left done p = .ok (q, g, stop)) : s.Ends runner state g q stop := by
  induction left generalizing done p with
  | zero =>
    obtain ⟨rfl, rfl, rfl⟩ := ok_triple_inj h
    exact ⟨hp, hgoes, Or.inl ⟨by omega, rfl⟩⟩
  | succ left ih =>
    rw [advance] at h
    rcases hstop : s.stop? (done + 1) p.archive with _ | stop' <;> rw [hstop] at h
    · obtain ⟨p', hstep, h⟩ := bind_eq_ok.1 h
      refine ih (progress_succ.2 ⟨p, hp, hstep⟩) (fun k hk q' hq' => ?_) (by omega) h
      rcases Nat.lt_succ_iff_lt_or_eq.1 hk with hk | rfl
      · exact hgoes k hk q' hq'
      · obtain rfl := Except.ok.inj (hp.symm.trans hq')
        exact hstop
    · obtain ⟨rfl, rfl, rfl⟩ := ok_triple_inj h
      exact ⟨hp, hgoes, Or.inr ⟨by omega, Option.some_ne_none _, hstop⟩⟩

/-- A run that returns has followed its course up to its last generation. -/
theorem exists_ends_of_run (h : s.run runner state = .ok (r, state')) :
    ∃ p stop, s.Ends runner state r.generations p stop ∧ result p r.generations stop = (r, state') := by
  obtain ⟨-, p, q, g, stop, hfirst, hadvance, h⟩ := run_eq_ok.1 h
  obtain ⟨rfl, rfl⟩ := Prod.mk.inj h
  have hbegin : s.progress runner state 0 = .ok p := hfirst
  exact ⟨q, stop, ends_of_advance hbegin (fun k hk => absurd hk (Nat.not_lt_zero k)) (Nat.zero_add _) hadvance, rfl⟩

theorem fields_of_result (h : result p g stop = (r, state')) : r.history = p.history ∧
    r.cancelled = (stop == some .cancelled) ∧ r.stoppedEarly = (stop == some .covered) ∧
    r.tests = p.archive.tests ∧ r.coveredTargets = p.archive.coveredTargets := by
  obtain ⟨rfl, -⟩ := Prod.mk.inj h
  exact ⟨rfl, rfl, rfl, rfl, rfl⟩

/-! ## Whole courses -/

theorem chronicles_of_generation (h : s.generation runner g p = .ok q) : ∃ batch e, Chronicles g p batch e q := by
  cases runner with
  | evolution policy =>
    obtain ⟨batch, e, hchronicles, -⟩ := (recorded_traced s).step h
    exact ⟨batch, e, hchronicles⟩
  | sampling =>
    obtain ⟨batch, e, hchronicles, -⟩ := (recorded_traced s).sampleBatch h
    exact ⟨batch, e, hchronicles⟩

theorem chronicles_of_first (h : s.first runner state = .ok q) :
    ∃ policy active batch e, Chronicles 0 (s.blank policy active state) batch e q := by
  cases runner with
  | evolution policy =>
    obtain ⟨batch, e, hchronicles, -⟩ := (recorded_traced s).start h
    exact ⟨policy, [], batch, e, hchronicles⟩
  | sampling =>
    obtain ⟨batch, e, hchronicles, -⟩ := (recorded_traced s).sampleBatch h
    exact ⟨.all, List.range s.objectives.size, batch, e, hchronicles⟩

/-- A later progress of a course. -/
structure Extends (p q : Progress σ C) : Prop where
  archive_eq : ∃ batch, q.archive = p.archive.update batch
  isPrefix_history : p.history <+: q.history

theorem Extends.refl (p : Progress σ C) : Extends p p := ⟨⟨[], (Archive.update_nil _).symm⟩, List.prefix_refl _⟩

theorem Extends.trans (h : Extends p q) (h' : Extends q p') : Extends p p' := by
  obtain ⟨⟨batch, hbatch⟩, hgrows⟩ := h
  obtain ⟨⟨batch', hbatch'⟩, hgrows'⟩ := h'
  refine ⟨⟨batch ++ batch', ?_⟩, hgrows.trans hgrows'⟩
  rw [hbatch', hbatch, Archive.update_update]

theorem Chronicles.extends (h : Chronicles g p batch e q) : Extends p q := by
  refine ⟨⟨batch, h.archive_eq⟩, ?_⟩
  rw [h.history_eq]
  exact List.prefix_append _ _

theorem exists_progress_of_le (h : s.progress runner state g = .ok p) (hi : i ≤ g) :
    ∃ q, s.progress runner state i = .ok q ∧ Extends q p := by
  induction g generalizing p with
  | zero =>
    obtain rfl := Nat.le_zero.1 hi
    exact ⟨p, h, .refl p⟩
  | succ g ih =>
    rcases Nat.le_succ_iff.1 hi with hi | rfl
    · obtain ⟨p', hp', hgeneration⟩ := progress_succ.1 h
      obtain ⟨q, hq, hextends⟩ := ih hp' hi
      obtain ⟨batch, e, hchronicles⟩ := chronicles_of_generation hgeneration
      exact ⟨q, hq, hextends.trans hchronicles.extends⟩
    · exact ⟨p, h, .refl p⟩

theorem extends_of_progress (hq : s.progress runner state i = .ok q) (hp : s.progress runner state g = .ok p)
    (hi : i ≤ g) : Extends q p := by
  obtain ⟨q', hq', hextends⟩ := exists_progress_of_le hp hi
  obtain rfl := Except.ok.inj (hq.symm.trans hq')
  exact hextends

/-- The archive has been offered all batches, from an empty one on. -/
theorem exists_archive_of_progress (h : s.progress runner state g = .ok p) :
    ∃ executed, p.archive = (Archive.empty s.objectives.toList).update executed := by
  obtain ⟨q, hq, ⟨batch', hbatch'⟩, -⟩ := exists_progress_of_le h (Nat.zero_le g)
  obtain ⟨policy, active, batch, e, hbatch, -⟩ := chronicles_of_first hq
  refine ⟨batch ++ batch', ?_⟩
  rw [hbatch', hbatch, Archive.update_update]
  rfl

/-- A history has one entry for each generation, and the last one is on the archive as it is. -/
theorem exists_history_of_progress (h : s.progress runner state g = .ok p) : ∃ before e,
    before.length = g ∧ p.history = before ++ [e] ∧ p.archive.snapshot g p.active.length = .ok e := by
  induction g generalizing p with
  | zero =>
    obtain ⟨policy, active, batch, e, -, he, hhistory⟩ := chronicles_of_first h
    exact ⟨[], e, rfl, hhistory, he⟩
  | succ g ih =>
    obtain ⟨q, hq, hgeneration⟩ := progress_succ.1 h
    obtain ⟨before, e, hlength, hbefore, -⟩ := ih hq
    obtain ⟨batch, e', -, he', hhistory⟩ := chronicles_of_generation hgeneration
    refine ⟨before ++ [e], e', ?_, ?_, he'⟩
    · simp [hlength]
    · rw [hhistory, hbefore]

theorem length_history (h : s.progress runner state g = .ok p) : p.history.length = g + 1 := by
  obtain ⟨before, e, hlength, hhistory, -⟩ := exists_history_of_progress h
  rw [hhistory, List.length_append, hlength]
  rfl

theorem getLast?_history (h : s.progress runner state g = .ok p) :
    ∃ e, p.history.getLast? = some e ∧ p.archive.snapshot g p.active.length = .ok e := by
  obtain ⟨before, e, -, hhistory, he⟩ := exists_history_of_progress h
  refine ⟨e, ?_, he⟩
  rw [hhistory, List.getLast?_concat]

theorem exists_of_snapshot {a : Archive C} {active : Nat} (h : a.snapshot g active = .ok e) : ∃ averageLength,
    a.averageLength = .ok averageLength ∧
      e = ⟨g, a.coveredTargets, a.totalTargets, a.coverage, a.size, active, averageLength⟩ := by
  obtain ⟨averageLength, haverage, h⟩ := bind_eq_ok.1 h
  exact ⟨averageLength, haverage, (Except.ok.inj h).symm⟩

/-- An entry is the snapshot of the archive after its generation. -/
theorem snapshot_of_progress (h : s.progress runner state g = .ok p) (he : p.history[i]? = some e) :
    ∃ q, s.progress runner state i = .ok q ∧ Extends q p ∧ q.archive.snapshot i q.active.length = .ok e := by
  have hi : i ≤ g := by
    have hlt := (List.getElem?_eq_some_iff.1 he).1
    rw [length_history h] at hlt
    omega
  obtain ⟨q, hq, hextends⟩ := exists_progress_of_le h hi
  refine ⟨q, hq, hextends, ?_⟩
  obtain ⟨before, e', rfl, hhistory, he'⟩ := exists_history_of_progress hq
  obtain ⟨after, hafter⟩ := hextends.isPrefix_history
  rw [← hafter, hhistory] at he
  simp only [List.append_assoc, List.singleton_append, List.getElem?_append_right (Nat.le_refl _), Nat.sub_self,
    List.getElem?_cons_zero, Option.some.injEq] at he
  rwa [← he]

end Search

end CoverSearch
