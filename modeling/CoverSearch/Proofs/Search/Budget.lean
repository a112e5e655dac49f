import CoverSearch.Proofs.Search.Bookkeeping

/-!
# Searches with different budgets

No generation asks for the budget or for the stopping rules, and evolution asks for its budget only to leave room for
the history. So two searches that differ in these alone follow the same course, and one of them leaves it earlier.

* `Search.Budget`, `Search.under` : how far a search may go;
* `Search.progress_under` : the course under any two budgets;
* `Search.cutAtFull` : a history up to full coverage; `Search.Ends.eq_cutAtFull` : where a search stops early;
* `Search.Continues` : a result that goes on where another one ends; `Search.Ends.continues` : a longer run has one;
* `Search.run_under_continues` : what any two runs have in common.
-/

namespace CoverSearch.Search

variable {σ C : Type} [Chromosome C] {s : Search σ C} {runner : Runner} {policy : Policy} {state state' : σ}
  {p p' q : Progress σ C} {r r' : Result C} {stop : Option Stop} {g i : Nat} {e : Snapshot}
  {before after : List Snapshot}

/-- What bounds a search. -/
structure Budget where
  maxGenerations : Nat
  stopOnFullCoverage : Bool
  cancelled : Nat → Bool := fun _ => false

variable {b b' : Budget}

omit [Chromosome C] in
/-- The search with another budget. -/
def under (s : Search σ C) (b : Budget) : Search σ C :=
  { s with
    config := { s.config with maxGenerations := b.maxGenerations, stopOnFullCoverage := b.stopOnFullCoverage }
    cancelled := b.cancelled }

/-! ## One course -/

/-- Apart from the room for the history, which both have found, the initial populations are made alike. -/
theorem start_under (h : (s.under b).start policy state = .ok p) (h' : (s.under b').start policy state = .ok p') :
    p = p' := by
  obtain ⟨⟨fresh, p₁⟩, hask, h⟩ := bind_eq_ok.1 h
  obtain ⟨⟨policy₁, active₁⟩, hinitial, h⟩ := bind_eq_ok.1 h
  obtain ⟨p₂, hrerank, h⟩ := bind_eq_ok.1 h
  obtain ⟨⟨⟩, -, h⟩ := bind_eq_ok.1 h
  obtain ⟨⟨⟩, -, h⟩ := bind_eq_ok.1 h
  obtain ⟨_, hask', h'⟩ := bind_eq_ok.1 h'
  obtain rfl := Except.ok.inj (hask.symm.trans hask')
  obtain ⟨_, hinitial', h'⟩ := bind_eq_ok.1 h'
  obtain rfl := Except.ok.inj (hinitial.symm.trans hinitial')
  obtain ⟨_, hrerank', h'⟩ := bind_eq_ok.1 h'
  obtain rfl := Except.ok.inj (hrerank.symm.trans hrerank')
  obtain ⟨⟨⟩, -, h'⟩ := bind_eq_ok.1 h'
  obtain ⟨⟨⟩, -, h'⟩ := bind_eq_ok.1 h'
  exact Except.ok.inj (h.symm.trans h')

theorem first_under (h : (s.under b).first runner state = .ok p) (h' : (s.under b').first runner state = .ok p') :
    p = p' := by
  cases runner with
  | evolution policy => exact start_under h h'
  | sampling => exact Except.ok.inj (h.symm.trans h')

theorem generation_under (b : Budget) (p : Progress σ C) :
    (s.under b).generation runner g p = s.generation runner g p := by
  cases runner <;> rfl

theorem progress_under (h : (s.under b).progress runner state g = .ok p)
    (h' : (s.under b').progress runner state g = .ok p') : p = p' := by
  induction g generalizing p p' with
  | zero => exact first_under h h'
  | succ g ih =>
    obtain ⟨q, hq, h⟩ := progress_succ.1 h
    obtain ⟨q', hq', h'⟩ := progress_succ.1 h'
    obtain rfl := ih hq hq'
    rw [generation_under] at h h'
    exact Except.ok.inj (h.symm.trans h')

theorem extends_under (h : (s.under b).progress runner state g = .ok p)
    (h' : (s.under b').progress runner state i = .ok p') (hle : g ≤ i) : Extends p p' := by
  obtain ⟨q, hq, hextends⟩ := exists_progress_of_le h' hle
  obtain rfl := progress_under h hq
  exact hextends

/-! ## Early stops -/

/-- A history up to its first entry with all targets covered. -/
def cutAtFull : List Snapshot → List Snapshot
  | [] => []
  | e :: es => if e.coveredTargets = e.totalTargets then [e] else e :: cutAtFull es

theorem cutAtFull_append (hbefore : ∀ e ∈ before, e.coveredTargets ≠ e.totalTargets)
    (he : e.coveredTargets = e.totalTargets) (after : List Snapshot) :
    cutAtFull (before ++ e :: after) = before ++ [e] := by
  induction before with
  | nil => simp [cutAtFull, he]
  | cons d before ih =>
    rw [List.forall_mem_cons] at hbefore
    simp [cutAtFull, hbefore.1, ih hbefore.2]

omit [Chromosome C] in
theorem stop?_eq_covered {archive : Archive C} (h : s.stop? g archive = some .covered) :
    s.config.stopOnFullCoverage = true ∧ archive.coveredTargets = archive.totalTargets := by
  unfold stop? at h
  split at h
  · simp at h
  · split at h <;> simp_all

/-- A search that stops on full coverage has had it for the first time. -/
theorem Ends.eq_cutAtFull (h : s.Ends runner state g p (some .covered)) (hgrows : p.history <+: after) :
    p.history = cutAtFull after := by
  obtain ⟨-, hnone⟩ | ⟨-, -, hstop⟩ := h.ends
  · exact nomatch hnone
  obtain ⟨hflag, hfull⟩ := stop?_eq_covered hstop
  obtain ⟨before, e, hlength, hhistory, he⟩ := exists_history_of_progress h.progress_eq
  obtain ⟨_, -, rfl⟩ := exists_of_snapshot he
  obtain ⟨rest, rfl⟩ := hgrows
  have hbefore : ∀ d ∈ before, d.coveredTargets ≠ d.totalTargets := by
    intro d hd
    obtain ⟨i, hi, rfl⟩ := List.mem_iff_getElem.1 hd
    have hget : p.history[i]? = some before[i] := by
      rw [hhistory, List.getElem?_append_left hi, List.getElem?_eq_getElem hi]
    obtain ⟨q, hq, -, hsnapshot⟩ := snapshot_of_progress h.progress_eq hget
    obtain ⟨_, -, heq⟩ := exists_of_snapshot hsnapshot
    rw [heq]
    exact (stop?_eq_none.1 (h.goes_on i (by omega) q hq)).2 hflag
  rw [hhistory, List.append_assoc, List.singleton_append, cutAtFull_append hbefore hfull]

theorem Ends.le_maxGenerations (h : s.Ends runner state g p stop) : g ≤ s.config.maxGenerations := by
  obtain ⟨hg, -⟩ | ⟨hg, -⟩ := h.ends <;> omega

/-- A search that is neither cancelled nor stopped has spent its budget. -/
theorem Ends.generations_eq (h : s.Ends runner state g p stop) (hcancelled : stop ≠ some .cancelled)
    (hcovered : stop ≠ some .covered) : g = s.config.maxGenerations := by
  obtain ⟨hg, -⟩ | ⟨-, hne, -⟩ := h.ends
  · exact hg
  · rcases stop with _ | _ | _
    · exact absurd rfl hne
    · exact absurd rfl hcancelled
    · exact absurd rfl hcovered

/-! ## What is covered -/

/-- The archive behind a result. -/
def Leaves (s : Search σ C) (runner : Runner) (state : σ) (r : Result C) (a : Archive C) : Prop :=
  ∃ p, s.progress runner state r.generations = .ok p ∧ p.archive = a ∧ r.tests = a.tests ∧
    r.coveredTargets = a.coveredTargets

theorem Ends.leaves (h : s.Ends runner state r.generations p stop) (hr : result p r.generations stop = (r, state')) :
    s.Leaves runner state r p.archive := by
  obtain ⟨-, -, -, htests, hcovered⟩ := fields_of_result hr
  exact ⟨p, h.progress_eq, rfl, htests, hcovered⟩

/-- Later on the entry of an objective covers it too, and is no longer than before. -/
theorem exists_entry_of_extends (h : s.progress runner state g = .ok p) (hextends : Extends p q) {o : Objective C} {c : C}
    (ho : s.objectives.toList[i]? = some o) (hc : p.archive.entry? i = .ok (some c)) :
    ∃ d, q.archive.entry? i = .ok (some d) ∧ (o.fitness d == 0) = true ∧ Chromosome.size d ≤ Chromosome.size c := by
  obtain ⟨batch, hbatch⟩ := hextends.archive_eq
  obtain ⟨executed, hexecuted⟩ := exists_archive_of_progress h
  obtain ⟨d, hd, hsize⟩ := Archive.entry?_update batch hc
  rw [← hbatch] at hd
  refine ⟨d, hd, ?_, hsize⟩
  rw [hbatch, hexecuted, Archive.update_update, Archive.entry?_update_empty _ ho] at hd
  exact ((Slot.summarizes_foldl o _).entry_isLastShortest d (Except.ok.inj hd)).covers

/-- So is a test for it, if equal individuals are as good as each other. -/
theorem exists_test_of_extends (h : s.progress runner state g = .ok p) (hextends : Extends p q)
    (hequal : Archive.RespectsEq s.objectives.toList) {o : Objective C} {c : C} (ho : o ∈ s.objectives.toList)
    (hc : c ∈ p.archive.tests) (hcover : (o.fitness c == 0) = true) :
    ∃ d ∈ q.archive.tests, (o.fitness d == 0) = true ∧ Chromosome.size d ≤ Chromosome.size c := by
  obtain ⟨batch, hbatch⟩ := hextends.archive_eq
  obtain ⟨executed, hexecuted⟩ := exists_archive_of_progress h
  rw [hexecuted] at hc
  have hmem : c ∈ executed ++ batch := List.mem_append_left _ (Archive.mem_of_mem_tests hc)
  obtain ⟨d, hd, hdcover, hle⟩ := hequal.exists_shortest_test ho ⟨c, hmem, hcover⟩
  rw [hbatch, hexecuted, Archive.update_update]
  exact ⟨d, hd, hdcover, hle c hmem hcover⟩

/-- A result that goes on where another one ends. -/
structure Continues (s : Search σ C) (b b' : Budget) (runner : Runner) (state : σ) (r r' : Result C) : Prop where
  isPrefix_history : r.history <+: r'.history
  /-- An entry for an objective is followed by one that covers it and is no longer. -/
  exists_entry : ∃ a a', (s.under b).Leaves runner state r a ∧ (s.under b').Leaves runner state r' a' ∧
    ∀ i o c, s.objectives.toList[i]? = some o → a.entry? i = .ok (some c) →
      ∃ d, a'.entry? i = .ok (some d) ∧ (o.fitness d == 0) = true ∧ Chromosome.size d ≤ Chromosome.size c
  /-- The same goes for tests, if equal individuals are as good as each other. -/
  exists_test : Archive.RespectsEq s.objectives.toList → ∀ o ∈ s.objectives.toList, ∀ c ∈ r.tests,
    (o.fitness c == 0) = true →
      ∃ d ∈ r'.tests, (o.fitness d == 0) = true ∧ Chromosome.size d ≤ Chromosome.size c
  eq_cutAtFull : r.stoppedEarly = true → r.history = cutAtFull r'.history

theorem Ends.continues {last last' : σ} {stop' : Option Stop} (h : (s.under b).Ends runner state r.generations p stop)
    (hr : result p r.generations stop = (r, last)) (h' : (s.under b').Ends runner state r'.generations p' stop')
    (hr' : result p' r'.generations stop' = (r', last')) (hle : r.generations ≤ r'.generations) :
    s.Continues b b' runner state r r' := by
  have hextends : Extends p p' := extends_under h.progress_eq h'.progress_eq hle
  obtain ⟨hhistory, -, hstopped, htests, -⟩ := fields_of_result hr
  obtain ⟨hhistory', -, -, htests', -⟩ := fields_of_result hr'
  constructor
  case isPrefix_history =>
    rw [hhistory, hhistory']
    exact hextends.isPrefix_history
  case exists_entry =>
    refine ⟨p.archive, p'.archive, h.leaves hr, h'.leaves hr', fun i o c => ?_⟩
    exact exists_entry_of_extends h.progress_eq hextends
  case exists_test =>
    intro hequal o ho c hc
    rw [htests] at hc
    rw [htests']
    exact exists_test_of_extends h.progress_eq hextends hequal ho hc
  case eq_cutAtFull =>
    intro hearly
    rw [hearly, eq_comm, beq_iff_eq] at hstopped
    subst hstopped
    rw [hhistory, hhistory']
    exact h.eq_cutAtFull hextends.isPrefix_history

/-! ## Main statement -/

/-- Two runs that return, of the same search in the same state, but with any two budgets, stopping rules and
cancellations. The one with the longer history goes on where the other one ends. It is the one with the greater budget,
if that one is neither cancelled nor stopped early. -/
theorem run_under_continues (s : Search σ C) (b b' : Budget) (runner : Runner) (state : σ) (r r' : Result C)
    (last last' : σ) (h : (s.under b).run runner state = .ok (r, last))
    (h' : (s.under b').run runner state = .ok (r', last')) :
    (r.history.length ≤ r'.history.length → s.Continues b b' runner state r r') ∧
      (r'.cancelled = false → r'.stoppedEarly = false → b.maxGenerations ≤ b'.maxGenerations →
        r.history.length ≤ r'.history.length) := by
  obtain ⟨p, stop, hends, hr⟩ := exists_ends_of_run h
  obtain ⟨p', stop', hends', hr'⟩ := exists_ends_of_run h'
  obtain ⟨hhistory, -⟩ := fields_of_result hr
  obtain ⟨hhistory', hcancelled', hstopped', -⟩ := fields_of_result hr'
  have hlength : r.history.length = r.generations + 1 := hhistory ▸ length_history hends.progress_eq
  have hlength' : r'.history.length = r'.generations + 1 := hhistory' ▸ length_history hends'.progress_eq
  constructor
  · intro hle
    exact hends.continues hr hends' hr' (by omega)
  · intro hnot hearly hbudget
    rw [hnot, eq_comm, beq_eq_false_iff_ne] at hcancelled'
    rw [hearly, eq_comm, beq_eq_false_iff_ne] at hstopped'
    have hmax : r'.generations = b'.maxGenerations := hends'.generations_eq hcancelled' hstopped'
    have hmost : r.generations ≤ b.maxGenerations := hends.le_maxGenerations
    omega

/-- A search whose fresh individuals take one step each, which is counted up. -/
def counting : Search Nat Script where
  objectives := #[Script.taking 1, Script.taking 2]
  collaborators :=
    { generate := fun n source => .ok ((⟨[n]⟩, n + 1), source)
      offspring := fun _ _ => pure []
      execute := fun population state => (population, state)
      length_execute := fun _ _ => rfl }
  config := { populationSize := 2 }

/-- With the stopping rule the search stops after one generation, without it after all three. -/
theorem run_under_continues_counting : ∃ r r', (counting.under ⟨3, true, fun _ => false⟩).run .sampling 0 = .ok (r, 4) ∧
    (counting.under ⟨3, false, fun _ => false⟩).run .sampling 0 = .ok (r', 8) ∧
    r.history.length = 2 ∧ r'.history.length = 4 ∧ r.history <+: r'.history ∧ r.history = cutAtFull r'.history := by
  have hrun : (((counting.under ⟨3, true, fun _ => false⟩).run .sampling 0).toOption.map fun r =>
      (r.2, r.1.history.length, r.1.stoppedEarly)) = some (4, 2, true) := by
    decide +kernel
  have hrun' : (((counting.under ⟨3, false, fun _ => false⟩).run .sampling 0).toOption.map fun r =>
      (r.2, r.1.history.length, r.1.cancelled, r.1.stoppedEarly)) = some (8, 4, false, false) := by
    decide +kernel
  obtain ⟨⟨r, last⟩, hr, hrun⟩ := Option.map_eq_some_iff.1 hrun
  obtain ⟨⟨r', last'⟩, hr', hrun'⟩ := Option.map_eq_some_iff.1 hrun'
  rw [toOption_eq_some] at hr hr'
  simp only [Prod.mk.injEq] at hrun hrun'
  obtain ⟨rfl, hlength, hearly⟩ := hrun
  obtain ⟨rfl, hlength', hcancelled', hearly'⟩ := hrun'
  obtain ⟨hcontinues, hle⟩ := run_under_continues counting _ _ _ 0 r r' 4 8 hr hr'
  have h := hcontinues (hle hcancelled' hearly' (Nat.le_refl 3))
  exact ⟨r, r', hr, hr', hlength, hlength', h.isPrefix_history, h.eq_cutAtFull hearly⟩

end CoverSearch.Search
