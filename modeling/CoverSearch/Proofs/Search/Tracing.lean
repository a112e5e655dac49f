import CoverSearch.Proofs.Archive.History
import CoverSearch.Proofs.Search.Course

/-!
# A search that records what it executes

A search with a record writes down something about every round, so at the end it has the notes of all rounds in turn.
What the traced search has written down is the history of the search: the archive is the archive of that history, and
ranking, survival and the choice of the ranked objectives do not touch it.

* `Search.Recorded.advance`, `Search.Recorded.run` : the record of all rounds;
* `Search.exists_trace_of_evolve`, `Search.exists_trace_of_sample` : the traced search.
-/

namespace CoverSearch

variable {σ C α : Type} {state state' : σ} {g left done : Nat} {rounds : List (List C × Snapshot)}

/-- What is written down about a round. Random search tells nobody of its snapshots. -/
def Runner.note (ofBatch : List C → List α) (ofSnapshot : Snapshot → List α) : Runner → List C × Snapshot → List α
  | evolution _, (batch, e) => ofBatch batch ++ ofSnapshot e
  | sampling, (batch, _) => ofBatch batch

namespace Search

variable [Chromosome C] {s : Search σ C} {s' : Search (σ × List α) C} {ofBatch : List C → List α}
  {ofSnapshot : Snapshot → List α} {policy : Policy} {runner : Runner} {p q : Progress σ C} {r : Result C}
  {stop : Option Stop}

/-! ## Rounds -/

/-- What a search reports after some executed individuals: its archive has been offered them and nothing else. -/
def ReportsOf (s : Search σ C) (r : Result C × σ) (executed : List C) : Prop :=
  ∃ p g stop, r = result p g stop ∧ p.archive = (Archive.empty s.objectives.toList).update executed

namespace Recorded
variable (hs : s.Recorded s' ofBatch ofSnapshot)
include hs

theorem generation (h : s.generation runner g p = .ok q) : ∃ batch e, Chronicles g p batch e q ∧
    ∀ record, s'.generation runner g (p.withRecord record) =
      .ok (q.withRecord (record ++ runner.note ofBatch ofSnapshot (batch, e))) := by
  cases runner with
  | evolution policy =>
    simp only [Runner.note, ← List.append_assoc]
    exact hs.step h
  | sampling => exact hs.sampleBatch h

theorem first (h : s.first runner state = .ok q) : ∃ policy active batch e,
    Chronicles 0 (s.blank policy active state) batch e q ∧ ∀ record, s'.first runner (state, record) =
      .ok (q.withRecord (record ++ runner.note ofBatch ofSnapshot (batch, e))) := by
  cases runner with
  | evolution policy =>
    simp only [Runner.note, ← List.append_assoc]
    exact ⟨policy, [], hs.start h⟩
  | sampling =>
    obtain ⟨batch, e, hchronicles, hrecord⟩ := hs.sampleBatch h
    refine ⟨.all, List.range s.objectives.size, batch, e, hchronicles, fun record => ?_⟩
    have hblank := hrecord record
    unfold Search.first
    unfold blank at hblank ⊢
    rw [hs.objectives_eq, hs.source_eq]
    exact hblank

/-- The record grows by the notes of the rounds. -/
theorem advance (h : s.advance (s.generation runner) left done p = .ok (q, g, stop)) :
    ∃ rounds : List (List C × Snapshot),
      q.archive = p.archive.update (rounds.flatMap (·.1)) ∧ q.history = p.history ++ rounds.map (·.2) ∧
      ∀ record, s'.advance (s'.generation runner) left done (p.withRecord record) =
        .ok (q.withRecord (record ++ rounds.flatMap (runner.note ofBatch ofSnapshot)), g, stop) := by
  have hstop? : ∀ done archive, s'.stop? done archive = s.stop? done archive := by
    intro done archive
    rw [stop?, stop?, hs.cancelled_eq, hs.config_eq]
  induction left generalizing done p with
  | zero =>
    obtain ⟨rfl, rfl, rfl⟩ := ok_triple_inj h
    refine ⟨[], (Archive.update_nil _).symm, (List.append_nil _).symm, fun record => ?_⟩
    rw [List.flatMap_nil, List.append_nil]
    rfl
  | succ left ih =>
    rw [Search.advance] at h
    rcases hstop : s.stop? (done + 1) p.archive with _ | stop' <;> rw [hstop] at h
    · obtain ⟨p', hone, h⟩ := bind_eq_ok.1 h
      obtain ⟨batch, e, ⟨harchive, -, hhistory⟩, hrecord⟩ := hs.generation hone
      obtain ⟨rounds, harchive', hhistory', hrecord'⟩ := ih h
      refine ⟨(batch, e) :: rounds, ?_, ?_, fun record => ?_⟩
      · rw [harchive', harchive, Archive.update_update, List.flatMap_cons]
      · rw [hhistory', hhistory, List.append_assoc]
        rfl
      · have hstop' : s'.stop? (done + 1) (p.withRecord record).archive = none := (hstop? _ _).trans hstop
        rw [Search.advance, hstop', List.flatMap_cons, ← List.append_assoc]
        exact bind_eq_ok.2 ⟨_, hrecord record, hrecord' _⟩
    · obtain ⟨rfl, rfl, rfl⟩ := ok_triple_inj h
      refine ⟨[], (Archive.update_nil _).symm, (List.append_nil _).symm, fun record => ?_⟩
      have hstop' : s'.stop? (done + 1) (p.withRecord record).archive = some stop' := (hstop? _ _).trans hstop
      rw [Search.advance, hstop', List.flatMap_nil, List.append_nil]

/-- A search that returns has gone through some rounds, and the search with the record has the same result and the notes
of these rounds. -/
theorem run (h : s.run runner state = .ok (r, state')) : ∃ rounds : List (List C × Snapshot),
    s.ReportsOf (r, state') (rounds.flatMap (·.1)) ∧ r.history = rounds.map (·.2) ∧
    ∀ record, s'.run runner (state, record) =
      .ok (r, (state', record ++ rounds.flatMap (runner.note ofBatch ofSnapshot))) := by
  obtain ⟨hchecks, p, q, g, stop, hfirst, hadvance, h⟩ := run_eq_ok.1 h
  obtain ⟨policy, active, batch, e, ⟨harchive, -, hhistory⟩, hrecord⟩ := hs.first hfirst
  obtain ⟨rounds, harchive', hhistory', hrecord'⟩ := hs.advance hadvance
  refine ⟨(batch, e) :: rounds, ⟨q, g, stop, h.symm, ?_⟩, ?_, fun record => ?_⟩
  · rw [harchive', harchive, Archive.update_update, List.flatMap_cons]
    rfl
  · obtain ⟨rfl, -⟩ := Prod.mk.inj h
    show q.history = _
    rw [hhistory', hhistory]
    rfl
  · have hchecks' : s'.checks runner = .ok () := by
      unfold checks check at hchecks ⊢
      rwa [hs.config_eq, hs.objectives_eq]
    rw [run_eq_ok, hs.config_eq, List.flatMap_cons, ← List.append_assoc]
    obtain ⟨rfl, rfl⟩ := Prod.mk.inj h
    exact ⟨hchecks', _, _, g, stop, hrecord record, hrecord' _, rfl⟩

end Recorded

/-! ## The traced search -/

/-- A search reports on what its traced search records, and the latter has the same result. -/
theorem exists_trace_of_run (h : s.run runner state = .ok (r, state')) : ∃ executed,
    s.traced.run runner (state, []) = .ok (r, (state', executed)) ∧ s.ReportsOf (r, state') executed := by
  obtain ⟨rounds, hreports, -, hrecord⟩ := (recorded_traced s).run h
  refine ⟨_, hrecord [], ?_⟩
  have hnotes : runner.note id (fun _ => []) = fun round : List C × Snapshot => round.1 := by
    funext round
    cases runner <;> simp [Runner.note]
  rwa [List.nil_append, hnotes]

theorem exists_trace_of_evolve (h : s.evolve policy state = .ok (r, state')) : ∃ executed,
    s.traced.evolve policy (state, []) = .ok (r, (state', executed)) ∧ s.ReportsOf (r, state') executed :=
  exists_trace_of_run (show s.run (.evolution policy) state = _ from h)

theorem exists_trace_of_sample (h : s.sample state = .ok (r, state')) : ∃ executed,
    s.traced.sample (state, []) = .ok (r, (state', executed)) ∧ s.ReportsOf (r, state') executed :=
  exists_trace_of_run (show s.run .sampling state = _ from h)

end Search

end CoverSearch
