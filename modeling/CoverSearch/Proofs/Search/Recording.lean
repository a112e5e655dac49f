import CoverSearch.Proofs.Search.Run
import CoverSearch.Search.Sampling

/-!
# Searches with a record

The collaborators of a search can be made to write things down on the side, about the batches that they execute and the
snapshots of which they are told. No answer depends on that, so such a search does what the search does. A round of it
offers one batch to the archive and adds one snapshot to the history, and what it writes down is given by these two.

* `Action.Traces` : a request that leaves the record as it is;
* `Search.Chronicles` : the batch and the snapshot of a round;
* `Search.Recorded` : a search and one that keeps a record of it;
* `Search.Recorded.step`, `Search.Recorded.start`, `Search.Recorded.sampleBatch` : the record of one round;
* `Search.traced`, `Search.recorded_traced` : a search that records every individual that it has executed, as it leaves
  the executor.
-/

namespace CoverSearch

variable {σ C α β : Type} {state state' : σ} {source source' : Source} {answer : β} {fresh batch population : List C}
  {record : List α} {n g left done : Nat} {e : Snapshot}

/-! ## Requests -/

/-- A request that has nothing to record. -/
def Action.traced (request : Action σ α) : Action (σ × List C) α := fun (state, trace) source => do
  let ((answer, state), source) ← request state source
  return ((answer, (state, trace)), source)

/-- A request that answers as another one does, and leaves the record as it is. -/
def Action.Traces (request : Action σ α) (request' : Action (σ × List C) α) : Prop :=
  ∀ state source answer state' source', request state source = .ok ((answer, state'), source') →
    ∀ trace, request' (state, trace) source = .ok ((answer, (state', trace)), source')

theorem Action.traces_traced (request : Action σ β) : Action.Traces (C := α) request (Action.traced request) :=
  fun _ _ _ _ _ h _ => bind_eq_ok.2 ⟨_, h, rfl⟩

namespace Collaborators

variable {k : Collaborators σ C} {k' : Collaborators (σ × List α) C}

theorem traces_generateEach (hgenerate : Action.Traces k.generate k'.generate) (n : Nat) :
    Action.Traces (k.generateEach n) (k'.generateEach n) := by
  induction n with
  | zero =>
    intro state source fresh state' source' h record
    obtain ⟨hfresh, rfl⟩ := ok_pair_inj h
    obtain ⟨rfl, rfl⟩ := Prod.mk.inj hfresh
    rfl
  | succ n ih =>
    intro state source fresh state' source' h record
    obtain ⟨⟨⟨c, state₁⟩, source₁⟩, hc, h⟩ := bind_eq_ok.1 h
    obtain ⟨⟨⟨rest, state₂⟩, source₂⟩, hrest, h⟩ := bind_eq_ok.1 h
    obtain ⟨hfresh, rfl⟩ := ok_pair_inj h
    obtain ⟨rfl, rfl⟩ := Prod.mk.inj hfresh
    have hc' := hgenerate state source c state₁ source₁ hc record
    exact bind_eq_ok.2 ⟨_, hc', bind_eq_ok.2 ⟨_, ih state₁ source₁ rest _ _ hrest record, rfl⟩⟩

theorem traces_generateMany [Chromosome C] (hgenerate : Action.Traces k.generate k'.generate) (n : Nat) :
    Action.Traces (k.generateMany n) (k'.generateMany n) := by
  intro state source fresh state' source' h record
  unfold generateMany at h ⊢
  rcases hroom : (reserve n (individualBytes C) : Except Fault Unit) with e | u <;> rw [hroom] at h
  · exact nomatch h
  · exact traces_generateEach hgenerate n state source fresh state' source' h record

end Collaborators

/-- Collaborators whose executor records all individuals that it has executed, oldest first. -/
def Collaborators.traced (k : Collaborators σ C) : Collaborators (σ × List C) C where
  generate := Action.traced k.generate
  offspring population size := Action.traced (k.offspring population size)
  execute := fun population (state, trace) =>
    let (executed, state) := k.execute population state
    (executed, (state, trace ++ executed))
  length_execute := fun population (state, _) => k.length_execute population state
  listeners := k.listeners.map fun listener snapshot (state, trace) => (listener snapshot state, trace)

theorem Collaborators.notify_traced (k : Collaborators σ C) (e : Snapshot) (state : σ) (trace : List C) :
    k.traced.notify e (state, trace) = (k.notify e state, trace) := by
  unfold notify traced
  rw [List.foldl_map]
  induction k.listeners generalizing state with
  | nil => rfl
  | cons listener listeners ih => exact ih (listener e state)

/-- The same progress with a record. -/
def Progress.withRecord (p : Progress σ C) (record : List α) : Progress (σ × List α) C :=
  { p with state := (p.state, record) }

namespace Search

/-! ## One round -/

/-- A round offers a batch to the archive, and then adds a snapshot of it to the history. -/
structure Chronicles [Chromosome C] (g : Nat) (p : Progress σ C) (batch : List C) (e : Snapshot) (q : Progress σ C) :
    Prop where
  archive_eq : q.archive = p.archive.update batch
  snapshot_eq : q.archive.snapshot g q.active.length = .ok e
  history_eq : q.history = p.history ++ [e]

/-- A search that does what another one does and writes something down about batches and snapshots. -/
structure Recorded (s : Search σ C) (s' : Search (σ × List α) C) (ofBatch : List C → List α)
    (ofSnapshot : Snapshot → List α) : Prop where
  objectives_eq : s'.objectives = s.objectives
  config_eq : s'.config = s.config
  cancelled_eq : s'.cancelled = s.cancelled
  source_eq : s'.source = s.source
  generate : Action.Traces s.collaborators.generate s'.collaborators.generate
  offspring : ∀ population size,
    Action.Traces (s.collaborators.offspring population size) (s'.collaborators.offspring population size)
  execute_eq : ∀ population state record, s'.collaborators.execute population (state, record) =
    ((s.collaborators.execute population state).1, (s.collaborators.execute population state).2,
      record ++ ofBatch (s.collaborators.execute population state).1)
  notify_eq : ∀ e state record,
    s'.collaborators.notify e (state, record) = (s.collaborators.notify e state, record ++ ofSnapshot e)

theorem ask_withRecord {request : Action σ β} {request' : Action (σ × List α) β} {p q : Progress σ C}
    (hrequest : Action.Traces request request') (h : ask request p = .ok (answer, q)) (record : List α) :
    ask request' (p.withRecord record) = .ok (answer, q.withRecord record) := by
  obtain ⟨state, source, hanswer, rfl⟩ := exists_of_ask h
  exact bind_eq_ok.2 ⟨_, hrequest _ _ _ _ _ hanswer record, rfl⟩

variable [Chromosome C] {s : Search σ C} {s' : Search (σ × List α) C} {ofBatch : List C → List α}
  {ofSnapshot : Snapshot → List α} {policy : Policy} {runner : Runner} {p q : Progress σ C} {r : Result C}
  {stop : Option Stop}

theorem capture_withRecord (h : capture g p = .ok (q, e)) (record : List α) :
    capture g (p.withRecord record) = .ok (q.withRecord record, e) := by
  obtain ⟨hsnapshot, rfl⟩ := snapshot_of_capture h
  exact bind_eq_ok.2 ⟨_, hsnapshot, rfl⟩

namespace Recorded
variable (hs : s.Recorded s' ofBatch ofSnapshot)
include hs

theorem process (batch : List C) (p : Progress σ C) (record : List α) : s'.process batch (p.withRecord record) =
    ((s.process batch p).1, (s.process batch p).2.withRecord (record ++ ofBatch (s.process batch p).1)) := by
  simp only [Search.process, Progress.withRecord, hs.execute_eq]

omit [Chromosome C] in
theorem rerank (h : s.rerank population p = .ok q) (record : List α) :
    s'.rerank population (p.withRecord record) = .ok (q.withRecord record) := by
  obtain ⟨policy, active, added, survivors, hupdate, hsurvive, rfl⟩ := exists_of_rerank h
  unfold Search.rerank
  rw [hs.objectives_eq, hs.config_eq]
  exact bind_eq_ok.2 ⟨_, hupdate, bind_eq_ok.2 ⟨survivors, hsurvive, rfl⟩⟩

theorem announce (h : s.announce g p = .ok q) : ∃ e, p.archive.snapshot g p.active.length = .ok e ∧
    q = { p with history := p.history ++ [e], state := s.collaborators.notify e p.state } ∧
    ∀ record, s'.announce g (p.withRecord record) = .ok (q.withRecord (record ++ ofSnapshot e)) := by
  obtain ⟨e, he, rfl⟩ := exists_of_announce h
  refine ⟨e, he, rfl, fun record => bind_eq_ok.2 ⟨_, bind_eq_ok.2 ⟨e, he, rfl⟩, ?_⟩⟩
  simp only [Progress.withRecord, hs.notify_eq]
  rfl

theorem step (h : s.step g p = .ok q) : ∃ batch e, Chronicles g p batch e q ∧
    ∀ record, s'.step g (p.withRecord record) = .ok (q.withRecord (record ++ ofBatch batch ++ ofSnapshot e)) := by
  obtain ⟨⟨offspring, p₁⟩, hask, h⟩ := bind_eq_ok.1 h
  obtain ⟨_, hjoined, h⟩ := bind_eq_ok.1 h
  obtain ⟨p₂, hrerank, h⟩ := bind_eq_ok.1 h
  obtain ⟨_, hranked, h⟩ := bind_eq_ok.1 h
  obtain ⟨e, he, hq, hannounce⟩ := hs.announce h
  refine ⟨(s.process offspring p₁).1, e, ?_, fun record => ?_⟩
  · obtain ⟨state, source, -, rfl⟩ := exists_of_ask hask
    obtain ⟨policy, active, added, survivors, -, -, rfl⟩ := exists_of_rerank hrerank
    subst hq
    exact ⟨rfl, he, rfl⟩
  · have hrequest := hs.offspring p.population s.config.populationSize
    unfold Search.step
    rw [hs.config_eq]
    refine bind_eq_ok.2 ⟨_, ask_withRecord hrequest hask record, ?_⟩
    simp only [hs.process]
    exact bind_eq_ok.2 ⟨_, hjoined, bind_eq_ok.2 ⟨_, hs.rerank hrerank _, bind_eq_ok.2 ⟨_, hranked, hannounce _⟩⟩⟩

theorem start (h : s.start policy state = .ok q) : ∃ batch e, Chronicles 0 (s.blank policy [] state) batch e q ∧
    ∀ record, s'.start policy (state, record) = .ok (q.withRecord (record ++ ofBatch batch ++ ofSnapshot e)) := by
  obtain ⟨⟨fresh, p₁⟩, hask, h⟩ := bind_eq_ok.1 h
  obtain ⟨⟨policy₀, active₀⟩, hinitial, h⟩ := bind_eq_ok.1 h
  obtain ⟨p₂, hrerank, h⟩ := bind_eq_ok.1 h
  obtain ⟨_, hranked, h⟩ := bind_eq_ok.1 h
  obtain ⟨_, hhistory, h⟩ := bind_eq_ok.1 h
  obtain ⟨e, he, hq, hannounce⟩ := hs.announce h
  refine ⟨(s.process fresh p₁).1, e, ?_, fun record => ?_⟩
  · obtain ⟨state₁, source₁, -, rfl⟩ := exists_of_ask hask
    obtain ⟨policy₁, active₁, added, survivors, -, -, rfl⟩ := exists_of_rerank hrerank
    subst hq
    exact ⟨rfl, he, rfl⟩
  · have hrequest := Collaborators.traces_generateMany hs.generate s.config.populationSize
    unfold Search.start blank
    rw [hs.config_eq, hs.objectives_eq, hs.source_eq]
    refine bind_eq_ok.2 ⟨_, ask_withRecord hrequest hask record, ?_⟩
    simp only [hs.process]
    refine bind_eq_ok.2 ⟨_, hinitial, bind_eq_ok.2 ⟨_, hs.rerank hrerank _, ?_⟩⟩
    exact bind_eq_ok.2 ⟨_, hranked, bind_eq_ok.2 ⟨_, hhistory, hannounce _⟩⟩

theorem sampleBatch (h : s.sampleBatch g p = .ok q) : ∃ batch e, Chronicles g p batch e q ∧
    ∀ record, s'.sampleBatch g (p.withRecord record) = .ok (q.withRecord (record ++ ofBatch batch)) := by
  obtain ⟨⟨fresh, p₁⟩, hask, h⟩ := bind_eq_ok.1 h
  obtain ⟨⟨p₂, e⟩, hcapture, h⟩ := bind_eq_ok.1 h
  obtain rfl := Except.ok.inj h
  refine ⟨(s.process fresh p₁).1, e, ?_, fun record => ?_⟩
  · obtain ⟨state₁, source₁, -, rfl⟩ := exists_of_ask hask
    obtain ⟨he, rfl⟩ := snapshot_of_capture hcapture
    exact ⟨rfl, he, rfl⟩
  · have hrequest := Collaborators.traces_generateMany hs.generate s.config.populationSize
    unfold Search.sampleBatch
    rw [hs.config_eq]
    refine bind_eq_ok.2 ⟨_, ask_withRecord hrequest hask record, ?_⟩
    simp only [hs.process]
    exact bind_eq_ok.2 ⟨_, capture_withRecord hcapture _, rfl⟩

end Recorded

/-- The same search with a recording executor. -/
def traced (s : Search σ C) : Search (σ × List C) C :=
  { s with collaborators := s.collaborators.traced }

omit [Chromosome C] in
theorem recorded_traced (s : Search σ C) : s.Recorded s.traced id fun _ => [] where
  objectives_eq := rfl
  config_eq := rfl
  cancelled_eq := rfl
  source_eq := rfl
  generate := Action.traces_traced _
  offspring _ _ := Action.traces_traced _
  execute_eq _ _ _ := rfl
  notify_eq e state record := by
    rw [List.append_nil]
    exact s.collaborators.notify_traced e state record

end Search

end CoverSearch
