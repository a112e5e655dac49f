import CoverSearch.Frontier
import CoverSearch.Program
import CoverSearch.Proofs.Archive.Tests
import CoverSearch.Proofs.Graph.Levels
import CoverSearch.Proofs.Ranking.Comparisons
import CoverSearch.Proofs.Ranking.Evaluation

/-!
# What counts as covered

An execution hits a target when it records the target with distance zero. The fitness is zero then, and never otherwise:
a positive distance is not normalized to zero, and a recorded vertex some hops up the path adds at least one. An
infinite distance makes the fitness a NaN.

* `mem_uncoveredColumns_iff` : the uncovered columns of any matrix, NaNs included; a column whose first row is a NaN is
  never one of them;
* `covered_iff_hits` : the archive and the frontier take a target for covered when it is hit. Ranking does so too, but
  also when an infinite distance decides the first individual.
-/

namespace CoverSearch

variable {m : Matrix} {c i k : Nat}

/-! ## Uncovered columns -/

theorem bestBelow_of_isNaN (h : (m.value 0 c).isNaN = true) (n : Nat) : bestBelow m c n = 0 := by
  induction n with
  | zero => rfl
  | succ n ih =>
    -- nothing is less than a NaN
    rw [bestBelow_succ, ih, if_neg (Double.not_lt_of_isNaN_right h)]

/-- The scan of a column that starts with a number passes over NaNs and ends at a least number. -/
theorem bestBelow_least (h : (m.value 0 c).isNaN = false) (n : Nat) :
    (m.value (bestBelow m c n) c).isNaN = false ∧ ∀ i < n, ¬ m.value i c < m.value (bestBelow m c n) c := by
  induction n with
  | zero => exact ⟨h, fun i hi => absurd hi (Nat.not_lt_zero i)⟩
  | succ n ih =>
    obtain ⟨hnumber, hleast⟩ := ih
    rw [bestBelow_succ]
    split <;> rename_i hn
    · refine ⟨Double.isNaN_of_le (Double.le_of_lt hn), fun i hi hlt => ?_⟩
      rcases Nat.lt_succ_iff_lt_or_eq.1 hi with hi | rfl
      · exact hleast i hi (Double.lt_trans hlt hn)
      · exact Double.lt_irrefl _ hlt
    · refine ⟨hnumber, fun i hi => ?_⟩
      rcases Nat.lt_succ_iff_lt_or_eq.1 hi with hi | rfl
      · exact hleast i hi
      · exact hn

/-- A column is uncovered when its first row is a number and no row of it is at zero or below. -/
theorem mem_uncoveredColumns_iff (hsize : 0 < m.size) : c ∈ uncoveredColumns m ↔
    c < m.columns ∧ (m.value 0 c).isNaN = false ∧ ∀ i < m.size, ¬ m.value i c ≤ 0 := by
  have hmem : c ∈ uncoveredColumns m ↔ c < m.columns ∧ 0 < m.value (bestBelow m c m.size) c := by
    rw [uncoveredColumns, List.mem_filter, decide_eq_true_iff, Matrix.allColumns, List.mem_range, bestRow_eq]
  rw [hmem]
  refine and_congr_right fun _ => ?_
  rcases hfirst : (m.value 0 c).isNaN
  · obtain ⟨hnumber, hleast⟩ := bestBelow_least hfirst m.size
    have hpos : 0 < m.value (bestBelow m c m.size) c ↔ ¬ m.value (bestBelow m c m.size) c ≤ 0 := by
      rw [Double.le_iff_not_lt hnumber Double.isNaN_zero, not_not]
    rw [hpos, and_iff_right rfl]
    refine ⟨fun hbest i hi hle => ?_, fun hall => hall _ (bestBelow_lt hsize c (Nat.le_refl _))⟩
    have hbelow := hleast i hi
    rw [← Double.le_iff_not_lt hnumber (Double.isNaN_of_le hle)] at hbelow
    exact hbest (Double.le_trans hbelow hle)
  · rw [bestBelow_of_isNaN hfirst]
    exact iff_of_false (Double.not_lt_of_isNaN_right hfirst) fun h => nomatch h.1

/-! ## Objectives of a population -/

variable {C : Type} {objectives : Array (Objective C)} {q : Objective C}

theorem Archive.hasEntry_updates_iff [Chromosome C] (hq : objectives[i]? = some q) (batches : List (List C)) :
    ((empty objectives.toList).updates batches).HasEntry i ↔ ∃ c ∈ batches.flatten, (q.fitness c == 0) = true := by
  have hsome := (Slot.summarizes_foldl q batches.flatten).isSome_entry
  unfold HasEntry
  rw [updates_eq, Archive.entry?_update_empty _ (by simpa using hq), ← hsome, Option.isSome_iff_exists]
  simp

theorem coveredBy_of_objective (hq : objectives[i]? = some q) (population : List C) :
    coveredBy objectives population i = .ok (population.any q.covers) := by
  rw [coveredBy, hq]

theorem Matrix.Evaluates.mem_uncoveredColumns_iff {first : C} {rest : List C} {active : List Nat}
    (h : m.Evaluates (first :: rest) objectives active) (hk : active[k]? = some i) (hq : objectives[i]? = some q) :
    k ∈ uncoveredColumns m ↔ (q.fitness first).isNaN = false ∧ ∀ c ∈ first :: rest, ¬ q.fitness c ≤ 0 := by
  have hsize : 0 < m.size := by
    rw [h.size_eq]
    exact Nat.succ_pos _
  have hcolumn : k < m.columns := by
    rw [h.columns_eq]
    exact (List.getElem?_eq_some_iff.1 hk).1
  rw [CoverSearch.mem_uncoveredColumns_iff hsize, and_iff_right hcolumn, h.value_eq 0 k i first q rfl hk hq,
    h.forall_rows hk hq fun x => ¬ x ≤ 0]

/-! ## Main statement -/

/-- The fitness of a vertex is zero for the executions that hit it alone. So the archive has an entry for it after
batches in which someone hit it, and on the frontier it is covered when someone of the population hits it. Its column in
the matrix of a population is not uncovered when someone hits it, or when an infinite distance decides the first
fitness. -/
theorem covered_iff_hits (r : Record) (o : BlockObjective) (h : Graph.ofRecord r = .ok o.graph) :
    (∀ c : Coverage, c.Nonneg → ((o.fitness c == 0) = true ↔ c.Hits o.target)) ∧
      ∀ (C : Type) [Chromosome C] (coverage : C → Coverage) (objectives : Array (Objective C)) (i : Nat),
        objectives[i]? = some (o.toObjective coverage) →
        (∀ batches : List (List C), (∀ c ∈ batches.flatten, (coverage c).Nonneg) →
          (((Archive.empty objectives.toList).updates batches).HasEntry i ↔
            ∃ c ∈ batches.flatten, (coverage c).Hits o.target)) ∧
        ∀ population : List C, (∀ c ∈ population, (coverage c).Nonneg) →
          (∃ covered, coveredBy objectives population i = .ok covered ∧
            (covered = true ↔ ∃ c ∈ population, (coverage c).Hits o.target)) ∧
          ∀ (s : Strategy) (active : List Nat) (m : Matrix) (k : Nat) (first : C),
            Matrix.evaluate population objectives active = .ok m → active[k]? = some i →
            population.head? = some first →
            (k ∉ (preferenceSort s m).uncovered ↔ (∃ c ∈ population, (coverage c).Hits o.target) ∨
              ∃ d, o.nearestDistance? (coverage first) = some d ∧ maxFitness < d) := by
  obtain ⟨root, v, w, -, hpath⟩ := BlockObjective.exists_hasPath h
  have hzero : ∀ c : Coverage, c.Nonneg → ((o.fitness c == 0) = true ↔ c.Hits o.target) := fun c hc =>
    (hpath.fitness_spec hc).2.2
  refine ⟨hzero, fun C _ coverage objectives i hi => ⟨fun batches hbatches => ?_, fun population hpopulation => ?_⟩⟩
  · rw [Archive.hasEntry_updates_iff hi]
    exact exists_congr fun c => and_congr_right fun hc => hzero (coverage c) (hbatches c hc)
  refine ⟨⟨_, coveredBy_of_objective hi population, ?_⟩, fun s active m k first hm hk hfirst => ?_⟩
  · rw [List.any_eq_true]
    exact exists_congr fun c => and_congr_right fun hc => hzero (coverage c) (hpopulation c hc)
  · have hevaluates := Matrix.evaluates_of_evaluate hm
    obtain ⟨rest, rfl⟩ := List.head?_eq_some_iff.1 hfirst
    obtain ⟨hnan, -⟩ := hpath.fitness_spec (hpopulation first List.mem_cons_self)
    have hhits : (∀ c ∈ first :: rest, ¬ (o.toObjective coverage).fitness c ≤ 0) ↔
        ¬ ∃ c ∈ first :: rest, (coverage c).Hits o.target := by
      rw [not_exists]
      refine forall_congr' fun c => ?_
      rw [not_and]
      exact forall_congr' fun hc => not_congr (hpath.fitness_spec (hpopulation c hc)).2.1
    have huncovered : (preferenceSort s m).uncovered = uncoveredColumns m := by
      rw [preferenceSort_of_pos]
      rw [hevaluates.size_eq]
      exact Nat.succ_pos _
    rw [huncovered, hevaluates.mem_uncoveredColumns_iff hk hi, hhits, ← hnan, not_and_or, not_not, Bool.not_eq_false,
      or_comm]
    rfl

/-- The first program ends at block 1, the second one at block 5. -/
def twoPrograms : List Program :=
  [{ opcodes := [1], coverage := atBlockOne }, { opcodes := [2], coverage := .ofList [(⟨"f", 5⟩, 0), (⟨"f", 4⟩, 2)] }]

theorem covered_iff_hits_twoPrograms : ∃ (o : BlockObjective) (m : Matrix), Graph.ofRecord crossedRecord = .ok o.graph ∧
    o.target = ⟨"f", 5⟩ ∧ (o.fitness atBlockOne == 0) = false ∧
    ((Archive.empty [o.toObjective Program.coverage]).updates [twoPrograms, []]).HasEntry 0 ∧
    coveredBy #[o.toObjective Program.coverage] twoPrograms 0 = .ok true ∧
    Matrix.evaluate twoPrograms #[o.toObjective Program.coverage] [0] = .ok m ∧
    0 ∉ (preferenceSort pareto m).uncovered := by
  obtain ⟨o, hg, ho⟩ := exists_objective_crossedRecord
  obtain ⟨hzero, hall⟩ := covered_iff_hits crossedRecord o hg
  obtain ⟨harchive, hpopulation⟩ := hall Program Program.coverage #[o.toObjective Program.coverage] 0 rfl
  have hnonneg : ∀ c ∈ twoPrograms, c.coverage.Nonneg := by
    intro c hc
    apply Coverage.nonneg_of_entries
    revert c
    decide +kernel
  obtain ⟨⟨covered, hcovered, htrue⟩, hrank⟩ := hpopulation twoPrograms hnonneg
  rw [ho] at hzero harchive htrue hrank
  have hhits : ∃ c ∈ twoPrograms, c.coverage.Hits ⟨"f", 5⟩ :=
    ⟨_, List.mem_cons_of_mem _ List.mem_cons_self, 0, by decide +kernel, by decide +kernel⟩
  refine ⟨o, _, hg, ho, ?_, (harchive [twoPrograms, []] (by simpa using hnonneg)).2 (by simpa using hhits), ?_, rfl,
    (hrank pareto [0] _ 0 _ rfl rfl rfl).2 (Or.inl hhits)⟩
  · rw [← Bool.not_eq_true, hzero _ (hnonneg _ List.mem_cons_self)]
    rintro ⟨d, hd, -⟩
    exact nomatch hd
  · rw [hcovered, htrue.2 hhits]

/-- Nobody hits block 5, but its column is not uncovered. -/
theorem not_uncovered_lostAtFive : ∃ (o : BlockObjective) (m : Matrix), Graph.ofRecord crossedRecord = .ok o.graph ∧
    o.target = ⟨"f", 5⟩ ∧ lostAtFive.Nonneg ∧ ¬ lostAtFive.Hits o.target ∧
    Matrix.evaluate [lostAtFive] #[o.toObjective id] [0] = .ok m ∧ 0 ∉ (preferenceSort pareto m).uncovered := by
  obtain ⟨o, hg, ho⟩ := exists_objective_crossedRecord
  obtain ⟨root, v, w, -, hpath⟩ := BlockObjective.exists_hasPath hg
  have hd : lostAtFive.get? o.target = some (1 / 0) := by
    rw [ho]
    rfl
  obtain ⟨m, hm⟩ : ∃ m, Matrix.evaluate [lostAtFive] #[o.toObjective id] [0] = .ok m := ⟨_, rfl⟩
  have hevaluates := Matrix.evaluates_of_evaluate hm
  refine ⟨o, m, hg, ho, Coverage.nonneg_of_entries (by decide +kernel), ?_, hm, ?_⟩
  · rintro ⟨d, hd', hzero⟩
    obtain rfl : 1 / 0 = d := Option.some.inj (hd.symm.trans hd')
    exact absurd hzero (by decide +kernel)
  · rw [preferenceSort_of_pos pareto (hevaluates.size_eq ▸ Nat.one_pos), hevaluates.mem_uncoveredColumns_iff rfl rfl]
    rintro ⟨hnumber, -⟩
    have hnan : (normalize (1 / 0)).isNaN = true := by decide +kernel
    rw [← hpath.fitness_of_target hd] at hnan
    exact nomatch hnan.symm.trans hnumber

end CoverSearch
