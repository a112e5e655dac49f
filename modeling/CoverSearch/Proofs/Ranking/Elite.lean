import CoverSearch.Proofs.Ranking.Survivors

/-!
# The best rows survive

The first front holds the row that each uncovered column has chosen, so it is no longer than there are uncovered
columns. It is admitted first; sorting it by scores over all columns changes the order of its rows but not which they
are, and it is cut only when there is less room than it has rows.

* `uncovered_of_pos`, `fronts_of_uncovered` : the sorting of a matrix with rows and uncovered columns;
* `mem_survivors_of_mem_preferred` : a first front that fits in survives;
* `exists_survivor_least` : hence a least row of each uncovered column.
-/

namespace CoverSearch

variable {m : Matrix} {size c i : Nat}

theorem bestRow_mem_preferred (hc : c ∈ uncoveredColumns m) : bestRow m c ∈ preferred m :=
  List.mem_eraseDups.2 (List.mem_map_of_mem hc)

theorem length_preferred_le (m : Matrix) : (preferred m).length ≤ (uncoveredColumns m).length := by
  have hsub : preferred m ⊆ (uncoveredColumns m).map (bestRow m) := fun _ h => List.mem_eraseDups.1 h
  have hle := (List.subperm_of_subset (nodup_eraseDups _) hsub).length_le
  rwa [List.length_map] at hle

theorem uncovered_of_pos (s : Strategy) (hsize : 0 < m.size) : (preferenceSort s m).uncovered = uncoveredColumns m := by
  rw [preferenceSort_of_pos s hsize]

theorem fronts_of_uncovered (s : Strategy) (hsize : 0 < m.size) (h : uncoveredColumns m ≠ []) :
    ∃ rest, (preferenceSort s m).fronts = preferred m :: rest := by
  rw [preferenceSort_of_pos s hsize]
  simp only [if_neg (mt preferred_eq_nil.1 h)]
  exact ⟨_, rfl⟩

theorem mem_survivors_of_mem_preferred (s : Strategy) (hsize : 0 < m.size) (hroom : (preferred m).length ≤ size)
    (hi : i ∈ preferred m) : i ∈ survivors s m size := by
  have huncovered : uncoveredColumns m ≠ [] := mt preferred_eq_nil.2 (List.ne_nil_of_mem hi)
  obtain ⟨rest, hfronts⟩ := fronts_of_uncovered s hsize huncovered
  rw [survivors_eq_take, survivalOrder, hfronts, List.flatMap_cons, List.take_append]
  -- the first front is within the cut as a whole
  have hsorted := svdSort_perm m (preferred m) m.allColumns
  rw [List.take_of_length_le (hsorted.length_eq ▸ hroom)]
  exact List.mem_append_left _ (hsorted.mem_iff.2 hi)

theorem exists_survivor_least (hm : m.NaNFree) (hsize : 0 < m.size) (hroom : (uncoveredColumns m).length ≤ size)
    (hc : c ∈ uncoveredColumns m) :
    ∃ b ∈ survivors pareto m size, ∀ i < m.size, ¬ m.value i c < m.value b c := by
  refine ⟨bestRow m c, ?_, (bestRow_isFirstLeast hm hsize c).2.1⟩
  apply mem_survivors_of_mem_preferred pareto hsize
  · exact (length_preferred_le m).trans hroom
  · exact bestRow_mem_preferred hc

end CoverSearch
