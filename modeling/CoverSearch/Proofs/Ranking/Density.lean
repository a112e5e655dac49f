import CoverSearch.Proofs.Ranking.Survivors

/-!
# Sub-vector dominance

The score of a member is the greatest number of columns in which another row among the members is less. A third row is
less than a row that dominates in no more columns than it is less than the dominated one, and the dominated row itself
in none. So a row that dominates has no greater score. Repeated members change nothing, as no row competes with itself.

* `svdScore_le_iff` : the score as a least bound; `columnsBelow_le` : what dominance says of a third row;
* `svdScore_le_of_dominates` : the scores of two rows, one of which dominates the other;
* `SortsPlaces`, `svdSort_eq_map` : the sort by places, so that repeated members are told apart;
* `svdSort_spec` : scores and order as a whole.
-/

namespace CoverSearch

variable {m : Matrix} {members columns : List Nat} {i j k n : Nat}

/-! ## Scores -/

theorem foldl_max_le_iff {l : List Nat} {a : Nat} : l.foldl max a ≤ n ↔ a ≤ n ∧ ∀ x ∈ l, x ≤ n := by
  induction l generalizing a with
  | nil => simp
  | cons x l ih => rw [List.foldl_cons, ih, Nat.max_le, List.forall_mem_cons, and_assoc]

theorem svdScore_le_iff : svdScore m members columns i ≤ n ↔ ∀ j ∈ members, j ≠ i → columnsBelow m columns i j ≤ n := by
  rw [svdScore, foldl_max_le_iff, and_iff_right (Nat.zero_le n), List.forall_mem_map]
  simp only [List.mem_filter, bne_iff_ne, and_imp]

theorem columnsBelow_le_svdScore (hj : j ∈ members) (hne : j ≠ i) :
    columnsBelow m columns i j ≤ svdScore m members columns i := svdScore_le_iff.1 (Nat.le_refl _) j hj hne

theorem svdScore_le_length (m : Matrix) (members columns : List Nat) (i : Nat) :
    svdScore m members columns i ≤ columns.length := svdScore_le_iff.2 fun _ _ _ => List.countP_le_length

/-- A third row is less than the dominating one in no more columns than it is less than the dominated one. -/
theorem columnsBelow_le (hm : m.NaNFree) (h : m.Dominates columns i k) (j : Nat) :
    columnsBelow m columns i j ≤ columnsBelow m columns k j := by
  apply List.countP_mono_left
  intro c hc hlt
  rw [decide_eq_true_eq] at hlt ⊢
  exact Double.lt_of_lt_of_not_lt (hm.value k c) hlt (h.1 c hc)

theorem columnsBelow_of_dominates (h : m.Dominates columns i k) : columnsBelow m columns i k = 0 := by
  rw [columnsBelow, List.countP_eq_zero]
  intro c hc
  rw [decide_eq_true_eq]
  exact h.1 c hc

theorem svdScore_le_of_dominates (hm : m.NaNFree) (h : m.Dominates columns i k) :
    svdScore m members columns i ≤ svdScore m members columns k := by
  rw [svdScore_le_iff]
  intro j hj hne
  rcases eq_or_ne j k with rfl | hjk
  · rw [columnsBelow_of_dominates h]
    exact Nat.zero_le _
  · exact (columnsBelow_le hm h j).trans (columnsBelow_le_svdScore hj hjk)

/-! ## Order -/

theorem idxOf_range (h : i < n) : (List.range n).idxOf i = i := by
  have hnodup := List.Nodup.idxOf_getElem (List.nodup_range (n := n)) i (by simpa using h)
  simpa using hnodup

/-- All places of a list of scores, in ascending order of the scores, and in their own order where these are equal. -/
structure SortsPlaces (scores places : List Nat) : Prop where
  perm : places.Perm (List.range scores.length)
  pairwise : places.Pairwise fun j k => scores.getD j 0 < scores.getD k 0 ∨ scores.getD j 0 = scores.getD k 0 ∧ j < k

theorem sortsPlaces_mergeSort (scores : List Nat) :
    SortsPlaces scores ((List.range scores.length).mergeSort fun j k => scores.getD j 0 ≤ scores.getD k 0) where
  perm := List.mergeSort_perm _ _
  pairwise := by
    refine (pairwise_mergeSort_idxOf List.nodup_range fun j => scores.getD j 0).imp_of_mem fun hj hk h => ?_
    rw [List.mem_mergeSort, List.mem_range] at hj hk
    rwa [idxOf_range hj, idxOf_range hk] at h

theorem getD_subvectorDominance (h : j < members.length) :
    (subvectorDominance m members columns).getD j 0 = svdScore m members columns (members.getD j 0) := by
  rw [subvectorDominance, List.getD_eq_getElem _ _ (by simpa using h), List.getElem_map, List.getD_eq_getElem _ _ h]

/-- The sort goes by places, so members that repeat keep their order too. -/
theorem svdSort_eq_map (m : Matrix) (members columns : List Nat) : svdSort m members columns =
    ((List.range members.length).mergeSort fun j k => (subvectorDominance m members columns).getD j 0 ≤
      (subvectorDominance m members columns).getD k 0).map (members.getD · 0) := by
  calc svdSort m members columns = ((List.range members.length).map (members.getD · 0)).mergeSort
        fun a b => svdScore m members columns a ≤ svdScore m members columns b := by
        rw [map_getD_range, svdSort_eq_mergeSort]
    _ = _ := by
      refine (List.map_mergeSort fun j hj k hk => ?_).symm
      rw [List.mem_range] at hj hk
      rw [getD_subvectorDominance hj, getD_subvectorDominance hk]

/-- Members and columns inside the matrix pass the checks. -/
theorem svdSort?_eq (hmembers : ∀ i ∈ members, i < m.size) (hcolumns : ∀ c ∈ columns, c < m.columns) :
    svdSort? m members columns = .ok (subvectorDominance m members columns, svdSort m members columns) := by
  have hall : columns.all (· < m.columns) = true := List.all_eq_true.2 fun c hc => decide_eq_true (hcolumns c hc)
  have hfits : densityFits m members columns = true := by
    rw [densityFits, hall, Bool.true_or, Bool.and_true]
    exact List.all_eq_true.2 fun i hi => decide_eq_true (hmembers i hi)
  rw [svdSort?, if_pos hfits]

/-! ## Main statement -/

/-- Sorting members by their scores on a matrix of numbers: the places of the members in ascending order of the scores,
equal scores in the given order. No score is above the number of columns, and a member that dominates another has no
greater score. -/
theorem svdSort_spec (m : Matrix) (hm : m.NaNFree) (members columns : List Nat) (hmembers : ∀ i ∈ members, i < m.size)
    (hcolumns : ∀ c ∈ columns, c < m.columns) : ∃ scores order places,
      scores = subvectorDominance m members columns ∧ order = svdSort m members columns ∧
      svdSort? m members columns = .ok (scores, order) ∧ scores.length = members.length ∧
      SortsPlaces scores places ∧ order = places.map (members.getD · 0) ∧ order.Perm members ∧
      (∀ s ∈ scores, s ≤ columns.length) ∧
      ∀ j < members.length, ∀ k < members.length, m.DominatesAt members columns j k →
        scores.getD j 0 ≤ scores.getD k 0 := by
  have hlength : (subvectorDominance m members columns).length = members.length := List.length_map _
  have hplaces := sortsPlaces_mergeSort (subvectorDominance m members columns)
  rw [hlength] at hplaces
  refine ⟨_, _, _, rfl, rfl, svdSort?_eq hmembers hcolumns, hlength, hplaces, svdSort_eq_map m members columns,
    svdSort_perm m members columns, fun s hs => ?_, fun j hj k hk hdominates => ?_⟩
  · obtain ⟨i, -, rfl⟩ := List.mem_map.1 hs
    exact svdScore_le_length m members columns i
  · rw [getD_subvectorDominance hj, getD_subvectorDominance hk]
    exact svdScore_le_of_dominates hm hdominates

/-- Row 1 is beaten everywhere and a member twice; rows 2 and 3 have equal scores. -/
theorem svdSort_spec_tiedRows : tiedRows.NaNFree ∧ (∀ i ∈ [1, 2, 1, 3], i < tiedRows.size) ∧
    (∀ c ∈ [0, 2], c < tiedRows.columns) ∧ tiedRows.DominatesAt [1, 2, 1, 3] [0, 2] 1 0 ∧
    ∃ order places, svdSort? tiedRows [1, 2, 1, 3] [0, 2] = .ok ([2, 1, 2, 1], order) ∧ order.Perm [1, 2, 1, 3] ∧
      SortsPlaces [2, 1, 2, 1] places ∧ order = places.map ([1, 2, 1, 3].getD · 0) := by
  have hrows : ∀ i ∈ [1, 2, 1, 3], i < tiedRows.size := by decide
  have hcolumns : ∀ c ∈ [0, 2], c < tiedRows.columns := by decide
  have hrun : paretoCompare (tiedRows.row 2) (tiedRows.row 1) [0, 2] = .left ∧
      subvectorDominance tiedRows [1, 2, 1, 3] [0, 2] = [2, 1, 2, 1] := by
    decide +kernel
  obtain ⟨hcompare, hvalues⟩ := hrun
  obtain ⟨scores, order, places, hscores, -, hsort, -, hplaces, hmap, hperm, -, -⟩ :=
    svdSort_spec tiedRows tiedRows_nanFree [1, 2, 1, 3] [0, 2] hrows hcolumns
  obtain rfl := hscores.trans hvalues
  exact ⟨tiedRows_nanFree, hrows, hcolumns, paretoCompare_eq_left.1 hcompare, order, places, hsort, hperm, hplaces,
    hmap⟩

end CoverSearch
