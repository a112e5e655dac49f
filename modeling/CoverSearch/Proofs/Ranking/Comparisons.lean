import CoverSearch.Proofs.Ranking.Survivors
import CoverSearch.Proofs.Value.Packing

/-!
# Ranking by comparisons

Ranking looks at a matrix only through the order of two entries of a column, and through the entries above zero. So two
matrices that agree in these are ranked alike, step by step: the scan of a column ends at the same row, the same columns
are uncovered, the same rows dominate each other, and every row has the same score. Nothing is assumed of NaNs.

* `lt_of_mem_preferenceSort` : fronts hold rows of the matrix, whatever its entries are;
* `Matrix.ComparesLike` : two matrices that agree; `Matrix.ComparesLike.preferenceSort_eq`,
  `Matrix.ComparesLike.survivors_eq` : they are ranked alike;
* `Rescales`, `Matrix.mapColumns` : columns replaced by increasing functions of them;
  `Matrix.comparesLike_mapColumns` : they agree with what they were;
* `survivors_comparesLike` : both as one.
-/

namespace CoverSearch

variable {a b m : Matrix} {c i k n : Nat} {members columns : List Nat}

/-- Two matrices of one shape, with the same order of the entries of a column and the same entries above zero. -/
structure Matrix.ComparesLike (a b : Matrix) : Prop where
  size_eq : a.size = b.size
  columns_eq : a.columns = b.columns
  lt_iff : ∀ i < a.size, ∀ k < a.size, ∀ c < a.columns, a.value i c < a.value k c ↔ b.value i c < b.value k c
  pos_iff : ∀ i < a.size, ∀ c < a.columns, 0 < a.value i c ↔ 0 < b.value i c

/-! ## Rows of fronts -/

theorem bestBelow_lt (hsize : 0 < m.size) (c : Nat) (hn : n ≤ m.size) : bestBelow m c n < m.size := by
  induction n with
  | zero => exact hsize
  | succ n ih =>
    rw [bestBelow_succ]
    split
    · omega
    · exact ih (by omega)

theorem bestRow_lt (hsize : 0 < m.size) (c : Nat) : bestRow m c < m.size := bestBelow_lt hsize c (Nat.le_refl _)

theorem mem_of_mem_nonDominatedSort {s : Strategy} {front : List Nat}
    (hfront : front ∈ (nonDominatedSort s m members columns).fronts) (hi : i ∈ front) : i ∈ members := by
  rw [nonDominatedSort_eq] at hfront
  obtain ⟨ps, hps, rfl⟩ := List.mem_map.1 hfront
  obtain ⟨k, hk, rfl⟩ := List.mem_map.1 hi
  have hlt := flatten_peel_subperm _ |>.subset (List.mem_flatten.2 ⟨ps, hps, hk⟩)
  rw [List.mem_range] at hlt
  rw [List.getD_eq_getElem _ _ hlt]
  exact List.getElem_mem hlt

theorem lt_of_mem_preferenceSort {s : Strategy} {front : List Nat} (hfront : front ∈ (preferenceSort s m).fronts)
    (hi : i ∈ front) : i < m.size := by
  by_cases hsize : m.size = 0
  · rw [preferenceSort_of_isEmpty s hsize] at hfront
    exact absurd hfront List.not_mem_nil
  · have hpos : 0 < m.size := by omega
    rw [preferenceSort_of_pos s hpos, List.mem_append] at hfront
    rcases hfront with hfront | hfront
    · split at hfront
      · exact absurd hfront List.not_mem_nil
      · rw [List.mem_singleton.1 hfront] at hi
        obtain ⟨c, -, rfl⟩ := List.mem_map.1 (List.mem_eraseDups.1 hi)
        exact bestRow_lt hpos c
    · exact (mem_unpreferred.1 (mem_of_mem_nonDominatedSort hfront hi)).1

namespace Matrix.ComparesLike
variable (h : a.ComparesLike b)
include h

/-! ## Columns -/

theorem bestBelow_eq (hsize : 0 < a.size) (hc : c < a.columns) (hn : n ≤ a.size) :
    bestBelow a c n = bestBelow b c n := by
  induction n with
  | zero => rfl
  | succ n ih =>
    have hbest := bestBelow_lt hsize c (Nat.le_of_succ_le hn)
    rw [bestBelow_succ, bestBelow_succ, ← ih (by omega)]
    exact if_congr (h.lt_iff n (by omega) _ hbest c hc) rfl rfl

theorem bestRow_eq (hsize : 0 < a.size) (hc : c < a.columns) : bestRow a c = bestRow b c := by
  rw [CoverSearch.bestRow_eq, CoverSearch.bestRow_eq, ← h.size_eq]
  exact h.bestBelow_eq hsize hc (Nat.le_refl _)

theorem uncoveredColumns_eq (hsize : 0 < a.size) : uncoveredColumns a = uncoveredColumns b := by
  unfold uncoveredColumns allColumns
  rw [← h.columns_eq]
  apply List.filter_congr
  intro c hc
  have hc := List.mem_range.1 hc
  rw [← h.bestRow_eq hsize hc, decide_eq_decide]
  exact h.pos_iff _ (bestRow_lt hsize c) c hc

theorem preferred_eq (hsize : 0 < a.size) : preferred a = preferred b := by
  unfold preferred
  rw [← h.uncoveredColumns_eq hsize]
  congr 1
  apply List.map_congr_left
  intro c hc
  exact h.bestRow_eq hsize (List.mem_range.1 (List.mem_of_mem_filter hc))

theorem unpreferred_eq (hsize : 0 < a.size) : unpreferred a = unpreferred b := by
  unfold unpreferred allRows
  rw [h.size_eq, h.preferred_eq hsize]

/-! ## Fronts -/

theorem paretoCompare_eq (hi : i < a.size) (hk : k < a.size) (hcolumns : ∀ c ∈ columns, c < a.columns) :
    paretoCompare (a.row i) (a.row k) columns = paretoCompare (b.row i) (b.row k) columns := by
  have hless : ∀ i < a.size, ∀ k < a.size, (columns.any fun c => (a.row i).value c < (a.row k).value c) =
      columns.any fun c => (b.row i).value c < (b.row k).value c := by
    intro i hi k hk
    rw [Bool.eq_iff_iff, List.any_eq_true, List.any_eq_true]
    apply exists_congr
    intro c
    apply and_congr_right
    intro hc
    rw [decide_eq_true_iff, decide_eq_true_iff]
    exact h.lt_iff i hi k hk c (hcolumns c hc)
  unfold paretoCompare
  rw [advantages_eq, advantages_eq, hless i hi k hk, hless k hk i hi]

theorem memberBeats_eq (hsize : 0 < a.size) (hmembers : ∀ i ∈ members, i < a.size)
    (hcolumns : ∀ c ∈ columns, c < a.columns) :
    memberBeats pareto a members.toArray columns = memberBeats pareto b members.toArray columns := by
  -- outside the members a position reads row zero
  have hrow : ∀ k, members.toArray.getD k 0 < a.size := by
    intro k
    rcases getD_mem_or members.toArray k 0 with hk | hk
    · exact hmembers _ (List.mem_toArray.1 hk)
    · rwa [hk]
  funext i j
  unfold memberBeats
  congr 1
  funext i j
  exact h.paretoCompare_eq (hrow i) (hrow j) hcolumns

theorem nonDominatedSort_eq (hsize : 0 < a.size) (hmembers : ∀ i ∈ members, i < a.size)
    (hcolumns : ∀ c ∈ columns, c < a.columns) :
    nonDominatedSort pareto a members columns = nonDominatedSort pareto b members columns := by
  simp only [nonDominatedSort, h.memberBeats_eq hsize hmembers hcolumns]

theorem preferenceSort_eq : preferenceSort pareto a = preferenceSort pareto b := by
  by_cases hsize : a.size = 0
  · rw [preferenceSort_of_isEmpty pareto hsize, preferenceSort_of_isEmpty pareto (h.size_eq ▸ hsize)]
  · have hpos : 0 < a.size := by omega
    have hmembers : ∀ i ∈ unpreferred a, i < a.size := fun i hi => (mem_unpreferred.1 hi).1
    have hcolumns : ∀ c ∈ uncoveredColumns a, c < a.columns := fun c hc => List.mem_range.1 (List.mem_of_mem_filter hc)
    rw [preferenceSort_of_pos pareto hpos, preferenceSort_of_pos pareto (h.size_eq ▸ hpos),
      h.nonDominatedSort_eq hpos hmembers hcolumns, h.preferred_eq hpos, h.unpreferred_eq hpos,
      h.uncoveredColumns_eq hpos]

/-! ## Survivors -/

theorem columnsBelow_eq (hi : i < a.size) (hk : k < a.size) :
    columnsBelow a a.allColumns i k = columnsBelow b b.allColumns i k := by
  unfold columnsBelow allColumns
  rw [← h.columns_eq]
  apply List.countP_congr
  intro c hc
  simpa using h.lt_iff k hk i hi c (List.mem_range.1 hc)

theorem svdSort_eq (hmembers : ∀ i ∈ members, i < a.size) :
    svdSort a members a.allColumns = svdSort b members b.allColumns := by
  have hscores : subvectorDominance a members a.allColumns = subvectorDominance b members b.allColumns := by
    apply List.map_congr_left
    intro i hi
    unfold svdScore
    congr 1
    apply List.map_congr_left
    intro k hk
    exact h.columnsBelow_eq (hmembers i hi) (hmembers k (List.mem_of_mem_filter hk))
  unfold svdSort
  rw [hscores]

theorem survivors_eq (size : Nat) : survivors pareto a size = survivors pareto b size := by
  have horder : survivalOrder pareto a = survivalOrder pareto b := by
    unfold survivalOrder
    rw [← h.preferenceSort_eq]
    apply List.flatMap_congr
    intro front hfront
    exact h.svdSort_eq fun i hi => lt_of_mem_preferenceSort hfront hi
  rw [survivors_eq_take, survivors_eq_take, horder]

end Matrix.ComparesLike

/-! ## Rescaled columns -/

/-- Strictly increasing on some doubles, with zeros left zeros and NaNs left NaNs. -/
structure Rescales (f : Float → Float) (entries : List Float) : Prop where
  lt : ∀ x ∈ entries, ∀ y ∈ entries, x < y → f x < f y
  zero : ∀ x ∈ entries, (x == 0) = true → (f x == 0) = true
  nan : ∀ x ∈ entries, x.isNaN = true → (f x).isNaN = true

theorem Rescales.lt_iff {f : Float → Float} {entries : List Float} {x y : Float} (h : Rescales f entries)
    (hx : x ∈ entries) (hy : y ∈ entries) : x < y ↔ f x < f y := by
  have hnumber : ∀ z ∈ entries, (f z).isNaN = false → z.isNaN = false := by
    intro z hz hfz
    by_contra hnan
    rw [h.nan z hz (by simpa using hnan)] at hfz
    exact nomatch hfz
  refine ⟨h.lt x hx y hy, fun hlt => ?_⟩
  have hxn := hnumber x hx (Double.isNaN_of_le (Double.le_of_lt hlt))
  have hyn := hnumber y hy (Double.isNaN_of_le_right (Double.le_of_lt hlt))
  by_contra hnot
  -- what is not less is greater, or equal and so the same or also zero
  by_cases hne : (y == x) = true
  · by_cases hzero : (y == 0) = true
    · have hxzero : (x == 0) = true := Double.beq_trans (Double.beq_comm y x ▸ hne) hzero
      have hyzero := Double.beq_comm (f y) 0 ▸ h.zero y hy hzero
      exact Double.not_lt_of_beq (Double.beq_trans (h.zero x hx hxzero) hyzero) hlt
    · rw [Double.eq_of_beq hne (by simpa using hzero)] at hlt
      exact Double.lt_irrefl _ hlt
  · have hyx := Double.lt_of_le_of_beq_eq_false ((Double.le_iff_not_lt hyn hxn).2 hnot) (by simpa using hne)
    exact Double.lt_asymm hlt (h.lt y hy x hx hyx)

namespace Matrix

/-- The entries of a column. -/
def column (m : Matrix) (c : Nat) : List Float := m.allRows.map fun i => m.value i c

theorem size_mapIdx_of_mem_map {f : Nat → Float → Float} {r : Row} (hr : r ∈ m.rows.map fun r => r.mapIdx f) :
    r.size = m.columns := by
  obtain ⟨s, hs, rfl⟩ := Array.mem_map.1 hr
  rw [Array.size_mapIdx]
  exact m.rectangular s hs

/-- The matrix with each column replaced by a function of it. -/
def mapColumns (f : Nat → Float → Float) (m : Matrix) : Matrix :=
  ⟨m.rows.map fun r => r.mapIdx f, m.columns, fun _ hr => size_mapIdx_of_mem_map hr⟩

theorem size_row (hi : i < m.size) : (m.row i).size = m.columns := by
  unfold row
  rw [Array.getD_eq_getD_getElem?, Array.getElem?_eq_getElem hi]
  exact m.rectangular _ (Array.getElem_mem hi)

theorem size_mapColumns (f : Nat → Float → Float) (m : Matrix) : (m.mapColumns f).size = m.size := Array.size_map

theorem value_mapColumns (f : Nat → Float → Float) (hi : i < m.size) (hc : c < m.columns) :
    (m.mapColumns f).value i c = f c (m.value i c) := by
  have hrow : c < (m.row i).size := by rwa [size_row hi]
  have hmap : (m.mapColumns f).row i = (m.row i).mapIdx f := by
    have hi' : i < m.rows.size := hi
    simp [row, mapColumns, hi']
  unfold value Row.value
  rw [hmap]
  simp [hrow]

theorem comparesLike_mapColumns {f : Nat → Float → Float} (h : ∀ c < m.columns, Rescales (f c) (0 :: m.column c)) :
    m.ComparesLike (m.mapColumns f) := by
  have hmem : ∀ i < m.size, ∀ c, m.value i c ∈ 0 :: m.column c := by
    intro i hi c
    exact List.mem_cons_of_mem _ (List.mem_map_of_mem (List.mem_range.2 hi))
  refine ⟨(size_mapColumns f m).symm, rfl, fun i hi k hk c hc => ?_, fun i hi c hc => ?_⟩
  · rw [value_mapColumns f hi hc, value_mapColumns f hk hc]
    exact (h c hc).lt_iff (hmem i hi c) (hmem k hk c)
  · have hzero := (h c hc).zero 0 List.mem_cons_self (by decide +kernel)
    rw [value_mapColumns f hi hc, ← @Double.lt_congr_left _ _ (f c (m.value i c)) hzero]
    exact (h c hc).lt_iff List.mem_cons_self (hmem i hi c)

end Matrix

/-! ## Main statement -/

/-- Ranking depends on comparisons only, NaNs included: two matrices that compare alike have the same uncovered columns,
fronts and survivors. So the survivors and their order stay when columns are rescaled. -/
theorem survivors_comparesLike (a : Matrix) :
    (∀ b, a.ComparesLike b → preferenceSort pareto a = preferenceSort pareto b ∧
      ∀ size, survivors pareto a size = survivors pareto b size) ∧
    ∀ f, (∀ c < a.columns, Rescales (f c) (0 :: a.column c)) →
      ∀ size, survivors pareto (a.mapColumns f) size = survivors pareto a size := by
  constructor
  · intro b h
    exact ⟨h.preferenceSort_eq, h.survivors_eq⟩
  · intro f h size
    exact ((Matrix.comparesLike_mapColumns h).survivors_eq size).symm

/-- The first column has a NaN, the second both zeros. -/
def mixedRows : Matrix :=
  ⟨#[#[0.5, -0.0], #[Float.ofBits 0x7FF8000000000000, 0], #[0.25, 3], #[2, 1]], 2, by simp⟩

/-- Other values that compare alike. -/
def mixedRowsAlike : Matrix :=
  ⟨#[#[7, 0], #[Float.ofBits 0x7FF8000000000000, 0], #[1, Float.ofBits 0x7FF0000000000000], #[7.5, 20]], 2, by simp⟩

theorem mixedRows_comparesLike : mixedRows.ComparesLike mixedRowsAlike :=
  ⟨by decide, by decide, by decide +kernel, by decide +kernel⟩

theorem mixedRows_rescales : ∀ c < mixedRows.columns,
    Rescales (fun x => if c = 0 then x + x else x * x * x) (0 :: mixedRows.column c) := by
  intro c hc
  have hcases : c = 0 ∨ c = 1 := by
    have hcolumns : mixedRows.columns = 2 := rfl
    omega
  rcases hcases with rfl | rfl <;> exact ⟨by decide +kernel, by decide +kernel, by decide +kernel⟩

theorem survivors_comparesLike_mixedRows :
    mixedRows.ComparesLike mixedRowsAlike ∧ preferenceSort pareto mixedRows = preferenceSort pareto mixedRowsAlike ∧
      survivors pareto mixedRows 3 = survivors pareto mixedRowsAlike 3 ∧
      (∀ c < mixedRows.columns, Rescales (fun x => if c = 0 then x + x else x * x * x) (0 :: mixedRows.column c)) ∧
      survivors pareto (mixedRows.mapColumns fun c x => if c = 0 then x + x else x * x * x) 3 =
        survivors pareto mixedRows 3 := by
  obtain ⟨hlike, hrescaled⟩ := survivors_comparesLike mixedRows
  obtain ⟨hsort, hsurvivors⟩ := hlike mixedRowsAlike mixedRows_comparesLike
  exact ⟨mixedRows_comparesLike, hsort, hsurvivors 3, mixedRows_rescales,
    hrescaled (fun c x => if c = 0 then x + x else x * x * x) mixedRows_rescales 3⟩

end CoverSearch
