import CoverSearch.Proofs.Ranking.Preference
import CoverSearch.Proofs.Success

/-!
# The matrix of a population

Row `i` of the matrix belongs to individual `i`, and column `k` to the objective ranked at place `k`. So a column is
uncovered when no individual brings its objective to zero or below, and a least row of it is an individual that is
closest to the objective.

* `Matrix.Evaluates` : a matrix that holds the fitness of a population; `Matrix.evaluates_of_evaluate` : the one that
  is computed does;
* `unreached` : whether an objective is above zero for all of a population; `Matrix.Evaluates.uncoveredColumns_eq` : the
  uncovered columns are those of unreached objectives;
* `IsClosest` : the individuals closest to an objective; `Matrix.Evaluates.isClosest` : least rows are such.
-/

namespace CoverSearch

variable {C : Type} {m : Matrix} {population : List C} {objectives : Array (Objective C)} {active : List Nat}
  {b k t : Nat} {o : Objective C} {c : C}

/-- Whether no individual of a population brings the objective at a position to zero or below. -/
def unreached (objectives : Array (Objective C)) (population : List C) (t : Nat) : Bool :=
  (objectives[t]?).any fun o => population.all fun c => !(o.fitness c ≤ 0)

/-- An individual of a population to which no other is preferred for an objective. -/
def IsClosest (o : Objective C) (population : List C) (c : C) : Prop :=
  c ∈ population ∧ ∀ d ∈ population, o.fitness c ≤ o.fitness d

theorem unreached_iff (ho : objectives[t]? = some o) :
    unreached objectives population t = true ↔ ∀ c ∈ population, ¬ o.fitness c ≤ 0 := by
  simp [unreached, ho]

namespace Matrix

/-- A row for each individual, and a column for each ranked objective. -/
structure Evaluates (m : Matrix) (population : List C) (objectives : Array (Objective C)) (active : List Nat) :
    Prop where
  size_eq : m.size = population.length
  columns_eq : m.columns = active.length
  value_eq : ∀ (i k t : Nat) (c : C) (o : Objective C), population[i]? = some c → active[k]? = some t →
    objectives[t]? = some o → m.value i k = o.fitness c

theorem evaluates_of_evaluate (h : evaluate population objectives active = .ok m) :
    m.Evaluates population objectives active := by
  rw [evaluate] at h
  split at h <;> rename_i hempty
  · obtain rfl := Except.ok.inj h
    obtain rfl := List.isEmpty_iff.1 hempty
    exact ⟨rfl, rfl, fun i k t c o hc => nomatch hc⟩
  · split at h
    · exact nomatch h
    · rename_i ranked hranked
      obtain rfl := Except.ok.inj h
      refine ⟨by simp [size], length_of_mapM_eq_some hranked, fun i k t c o hc ht ho => ?_⟩
      have hk : ranked[k]? = some o := by
        rw [getElem?_of_mapM_eq_some hranked, ht, Option.bind_some, ho]
      simp [value, row, Row.value, Array.getD_eq_getD_getElem?, hc, hk]

/-- A population that has a matrix has an objective at each ranked position. -/
theorem exists_objective_of_evaluate (h : evaluate population objectives active = .ok m) (hne : population ≠ [])
    (ht : t ∈ active) : ∃ o, objectives[t]? = some o := by
  rw [evaluate, if_neg (by simpa using hne)] at h
  split at h
  · exact nomatch h
  · rename_i ranked hranked
    obtain ⟨k, hk⟩ := List.mem_iff_getElem?.1 ht
    have hlt : k < ranked.length := by
      rw [length_of_mapM_eq_some hranked]
      exact (List.getElem?_eq_some_iff.1 hk).1
    have hget := getElem?_of_mapM_eq_some hranked k
    rw [hk, Option.bind_some] at hget
    exact ⟨ranked[k], hget ▸ List.getElem?_eq_getElem hlt⟩

namespace Evaluates

/-- What holds of a column holds of the fitness of every individual. -/
theorem forall_rows (h : m.Evaluates population objectives active) (ht : active[k]? = some t)
    (ho : objectives[t]? = some o) (P : Float → Prop) :
    (∀ i < m.size, P (m.value i k)) ↔ ∀ c ∈ population, P (o.fitness c) := by
  constructor
  · intro hall c hc
    obtain ⟨i, hi⟩ := List.mem_iff_getElem?.1 hc
    have hlt : i < m.size := h.size_eq ▸ (List.getElem?_eq_some_iff.1 hi).1
    exact h.value_eq i k t c o hi ht ho ▸ hall i hlt
  · intro hall i hi
    obtain ⟨c, hc⟩ : ∃ c, population[i]? = some c := ⟨_, List.getElem?_eq_getElem (h.size_eq ▸ hi)⟩
    rw [h.value_eq i k t c o hc ht ho]
    exact hall c (List.mem_of_getElem? hc)

/-- The uncovered columns are those of unreached objectives. -/
theorem uncoveredColumns_eq (h : m.Evaluates population objectives active) (hm : m.NaNFree) (hsize : 0 < m.size)
    (hobjectives : ∀ t ∈ active, ∃ o, objectives[t]? = some o) : uncoveredColumns m =
      (List.range active.length).filter fun k => unreached objectives population (active.getD k 0) := by
  rw [CoverSearch.uncoveredColumns_eq hm hsize, h.columns_eq]
  refine List.filter_congr fun k hk => ?_
  have ht : active[k]? = some (active.getD k 0) := by
    rw [List.getD_eq_getElem _ _ (List.mem_range.1 hk), List.getElem?_eq_getElem]
  obtain ⟨o, ho⟩ := hobjectives _ (List.mem_of_getElem? ht)
  rw [Bool.eq_iff_iff, decide_eq_true_iff, unreached_iff ho, ← h.forall_rows ht ho fun x => ¬ x ≤ 0]
  refine forall₂_congr fun i _ => ?_
  rw [Double.le_iff_not_lt (hm.value i k) Double.isNaN_zero, not_not]

theorem mem_uncoveredColumns (h : m.Evaluates population objectives active) (hm : m.NaNFree) (hsize : 0 < m.size)
    (hobjectives : ∀ t ∈ active, ∃ o, objectives[t]? = some o) (ht : active[k]? = some t) :
    k ∈ uncoveredColumns m ↔ unreached objectives population t = true := by
  obtain ⟨hk, rfl⟩ := List.getElem?_eq_some_iff.1 ht
  rw [h.uncoveredColumns_eq hm hsize hobjectives, List.mem_filter, List.mem_range, and_iff_right hk,
    List.getD_eq_getElem _ _ hk]

theorem length_uncoveredColumns (h : m.Evaluates population objectives active) (hm : m.NaNFree) (hsize : 0 < m.size)
    (hobjectives : ∀ t ∈ active, ∃ o, objectives[t]? = some o) :
    (uncoveredColumns m).length = active.countP (unreached objectives population) := by
  rw [h.uncoveredColumns_eq hm hsize hobjectives, ← List.countP_eq_length_filter]
  conv_rhs => rw [← map_getD_range active, List.countP_map]
  rfl

theorem isClosest (h : m.Evaluates population objectives active) (hm : m.NaNFree) (ht : active[k]? = some t)
    (ho : objectives[t]? = some o) (hc : population[b]? = some c) (hleast : ∀ i < m.size, ¬ m.value i k < m.value b k) :
    IsClosest o population c := by
  refine ⟨List.mem_of_getElem? hc, (h.forall_rows ht ho (o.fitness c ≤ ·)).1 fun i hi => ?_⟩
  rw [← h.value_eq b k t c o hc ht ho, Double.le_iff_not_lt (hm.value b k) (hm.value i k)]
  exact hleast i hi

end Evaluates
end Matrix

end CoverSearch
