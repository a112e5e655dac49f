import CoverSearch.Proofs.Ranking.Fronts
import CoverSearch.Ranking.Preference
import Mathlib.Data.List.Forall2
import Mathlib.Data.List.Induction

/-!
# Preference fronts

The scan of a column ends at the first of its least rows, so a column is uncovered exactly when all its rows are above
zero. The first front lists the rows so chosen, each at its first choice, and the fronts after it are the Pareto fronts
of the other rows on the uncovered columns.

* `bestRow_isFirstLeast` : the row that a column chooses;
* `uncoveredColumns_eq` : the uncovered columns without mention of that row;
* `eraseDups_pairwise_idxOf` : repeats leave, first places stay;
* `flatten_preferenceSort_perm` : every row is in one front, once;
* `preferenceSort_pareto` : the result as a whole.
-/

namespace CoverSearch

variable {m : Matrix}

/-- Row `b` is least in a column, and every row before it is greater. -/
def Matrix.IsFirstLeast (m : Matrix) (c b : Nat) : Prop :=
  b < m.size ∧ (∀ i < m.size, ¬ m.value i c < m.value b c) ∧ ∀ i < b, m.value b c < m.value i c

/-! ## The scan of a column -/

/-- The best row among the first `n`. -/
def bestBelow (m : Matrix) (c n : Nat) : Nat :=
  (List.range n).foldl (fun best i => if m.value i c < m.value best c then i else best) 0

theorem bestRow_eq (m : Matrix) (c : Nat) : bestRow m c = bestBelow m c m.size := rfl

theorem bestBelow_succ (m : Matrix) (c n : Nat) : bestBelow m c (n + 1) =
    if m.value n c < m.value (bestBelow m c n) c then n else bestBelow m c n := by
  rw [bestBelow, List.range_succ, List.foldl_append]
  rfl

/-- The scan so far has found the first of the least rows. -/
theorem bestBelow_spec (hm : m.NaNFree) (c n : Nat) : bestBelow m c (n + 1) < n + 1 ∧
    (∀ i < n + 1, ¬ m.value i c < m.value (bestBelow m c (n + 1)) c) ∧
    ∀ i < bestBelow m c (n + 1), m.value (bestBelow m c (n + 1)) c < m.value i c := by
  induction n with
  | zero =>
    have hzero : bestBelow m c 1 = 0 := by
      rw [bestBelow_succ]
      exact ite_self 0
    rw [hzero]
    refine ⟨by omega, fun i hi => ?_, by omega⟩
    rw [show i = 0 by omega]
    exact Double.lt_irrefl _
  | succ n ih =>
    obtain ⟨hlt, hleast, hfirst⟩ := ih
    rw [bestBelow_succ]
    split <;> rename_i h
    · have hbefore : ∀ i < n + 1, m.value (n + 1) c < m.value i c := fun i hi =>
        Double.lt_of_lt_of_not_lt (hm.value i c) h (hleast i hi)
      refine ⟨by omega, fun i hi => ?_, hbefore⟩
      rcases Nat.lt_succ_iff_lt_or_eq.1 hi with hi | rfl
      · exact Double.lt_asymm (hbefore i hi)
      · exact Double.lt_irrefl _
    · refine ⟨by omega, fun i hi => ?_, hfirst⟩
      rcases Nat.lt_succ_iff_lt_or_eq.1 hi with hi | rfl
      · exact hleast i hi
      · exact h

/-- A column chooses the first of its least rows. -/
theorem bestRow_isFirstLeast (hm : m.NaNFree) (hsize : 0 < m.size) (c : Nat) : m.IsFirstLeast c (bestRow m c) := by
  obtain ⟨n, hn⟩ := Nat.exists_eq_add_of_lt hsize
  have h := bestBelow_spec hm c n
  rw [show n + 1 = m.size by omega, ← bestRow_eq] at h
  exact h

/-- A column is uncovered when all its rows are above zero. -/
theorem uncoveredColumns_eq (hm : m.NaNFree) (hsize : 0 < m.size) :
    uncoveredColumns m = (List.range m.columns).filter fun c => ∀ i < m.size, 0 < m.value i c := by
  refine List.filter_congr fun c _ => ?_
  obtain ⟨hlt, hleast, -⟩ := bestRow_isFirstLeast hm hsize c
  rw [decide_eq_decide]
  exact ⟨fun h i hi => Double.lt_of_lt_of_not_lt (hm.value i c) h (hleast i hi), fun h => h _ hlt⟩

/-! ## First choices -/

theorem eraseDups_concat (l : List Nat) (b : Nat) :
    (l ++ [b]).eraseDups = if b ∈ l then l.eraseDups else l.eraseDups ++ [b] := by
  rw [List.eraseDups_append]
  by_cases h : b ∈ l <;> simp [List.removeAll, List.eraseDups_cons, h]

/-- Elements stay in the order of their first places. -/
theorem eraseDups_pairwise_idxOf (l : List Nat) : l.eraseDups.Pairwise fun a b => l.idxOf a < l.idxOf b := by
  induction l using List.reverseRecOn with
  | nil => exact List.Pairwise.nil
  | append_singleton l b ih =>
    have hold : l.eraseDups.Pairwise fun x y => (l ++ [b]).idxOf x < (l ++ [b]).idxOf y := by
      refine List.Pairwise.imp_of_mem (fun {x y} hx hy h => ?_) ih
      rwa [List.idxOf_append_of_mem (List.mem_eraseDups.1 hx), List.idxOf_append_of_mem (List.mem_eraseDups.1 hy)]
    rw [eraseDups_concat]
    split <;> rename_i h
    · exact hold
    · refine List.pairwise_append.2 ⟨hold, List.pairwise_singleton _ _, fun x hx y hy => ?_⟩
      rw [List.mem_singleton.1 hy, List.idxOf_append_of_mem (List.mem_eraseDups.1 hx), List.idxOf_append_of_notMem h]
      exact Nat.lt_add_right _ (List.idxOf_lt_length_of_mem (List.mem_eraseDups.1 hx))

theorem nodup_eraseDups (l : List Nat) : l.eraseDups.Nodup :=
  (eraseDups_pairwise_idxOf l).imp fun h heq => absurd (heq ▸ h) (Nat.lt_irrefl _)

/-! ## Fronts -/

theorem preferenceSort_of_isEmpty (s : Strategy) (h : m.size = 0) : preferenceSort s m = {} := by
  rw [preferenceSort, if_pos]
  exact Array.isEmpty_iff_size_eq_zero.2 h

theorem preferenceSort_of_pos (s : Strategy) (h : 0 < m.size) : preferenceSort s m =
    { fronts := (if preferred m = [] then [] else [preferred m]) ++
        (nonDominatedSort s m (unpreferred m) (uncoveredColumns m)).fronts
      uncovered := uncoveredColumns m } := by
  rw [preferenceSort, if_neg]
  · simp only [List.isEmpty_iff]
  · intro hempty
    have hzero : m.size = 0 := Array.isEmpty_iff_size_eq_zero.1 hempty
    omega

theorem preferred_eq_nil : preferred m = [] ↔ uncoveredColumns m = [] := by
  constructor
  · intro h
    rw [List.eq_nil_iff_forall_not_mem]
    intro c hc
    have hmem : bestRow m c ∈ preferred m := List.mem_eraseDups.2 (List.mem_map_of_mem hc)
    rw [h] at hmem
    exact List.not_mem_nil hmem
  · intro h
    rw [preferred, h]
    rfl

theorem mem_unpreferred {i : Nat} : i ∈ unpreferred m ↔ i < m.size ∧ i ∉ preferred m := by
  rw [unpreferred, List.mem_filter, Matrix.allRows, List.mem_range, Bool.not_eq_true', List.contains_eq_mem,
    decide_eq_false_iff_not]

theorem lt_of_mem_preferred (hm : m.NaNFree) (hsize : 0 < m.size) {i : Nat} (h : i ∈ preferred m) : i < m.size := by
  obtain ⟨c, -, rfl⟩ := List.mem_map.1 (List.mem_eraseDups.1 h)
  exact (bestRow_isFirstLeast hm hsize c).1

/-- The chosen rows and the others are all rows. -/
theorem preferred_append_unpreferred_perm (hm : m.NaNFree) (hsize : 0 < m.size) :
    (preferred m ++ unpreferred m).Perm (List.range m.size) := by
  have hnodup : (preferred m ++ unpreferred m).Nodup := by
    refine List.nodup_append.2 ⟨nodup_eraseDups _, List.nodup_range.filter _, fun a ha b hb hab => ?_⟩
    exact (mem_unpreferred.1 hb).2 (hab ▸ ha)
  refine (List.perm_ext_iff_of_nodup hnodup List.nodup_range).2 fun i => ?_
  rw [List.mem_append, mem_unpreferred, List.mem_range]
  constructor
  · rintro (h | h)
    · exact lt_of_mem_preferred hm hsize h
    · exact h.1
  · intro h
    by_cases hi : i ∈ preferred m
    · exact Or.inl hi
    · exact Or.inr ⟨h, hi⟩

theorem nil_notMem_preferenceSort (s : Strategy) (m : Matrix) : [] ∉ (preferenceSort s m).fronts := by
  rcases Nat.eq_zero_or_pos m.size with h | h
  · rw [preferenceSort_of_isEmpty s h]
    exact List.not_mem_nil
  · rw [preferenceSort_of_pos s h, List.mem_append]
    rintro (hnil | hnil)
    · split at hnil <;> rename_i hfirst
      · exact List.not_mem_nil hnil
      · exact hfirst (List.mem_singleton.1 hnil).symm
    · exact nil_notMem_nonDominatedSort s m _ _ hnil

/-- Every row is in one front, once. -/
theorem flatten_preferenceSort_perm (hm : m.NaNFree) :
    (preferenceSort pareto m).fronts.flatten.Perm (List.range m.size) := by
  rcases Nat.eq_zero_or_pos m.size with h | h
  · rw [preferenceSort_of_isEmpty pareto h, h]
    exact List.Perm.refl _
  · rw [preferenceSort_of_pos pareto h, List.flatten_append]
    have hfirst : (if preferred m = [] then [] else [preferred m]).flatten = preferred m := by
      split <;> simp_all
    rw [hfirst]
    exact ((flatten_nonDominatedSort_perm hm _ _).append_left _).trans (preferred_append_unpreferred_perm hm h)

/-! ## Without uncovered columns -/

theorem peel_of_none {dominates : Nat → Nat → Bool} {ps : List Nat} (hps : ps ≠ [])
    (hnone : ∀ i j, dominates i j = false) : peel dominates (counted dominates ps) = [ps] := by
  have hbehind : ∀ qs, behind dominates qs = [] := fun qs => by simp [behind, hnone]
  have hahead : ahead dominates ps = ps := by simp [ahead, hnone]
  rw [peel_counted, hbehind, hahead, if_neg hps, peel_counted]
  rfl

/-- On no columns nothing dominates, and the members are one front. -/
theorem nonDominatedSort_nil {members : List Nat} (h : members ≠ []) :
    (nonDominatedSort pareto m members []).fronts = [members] := by
  have hnone : ∀ i j, memberBeats pareto m members.toArray [] i j = false := by
    intro i j
    rw [← Bool.not_eq_true, memberBeats_pareto]
    rintro ⟨-, c, hc, -⟩
    exact List.not_mem_nil hc
  have hrange : List.range members.length ≠ [] := by
    rwa [ne_eq, List.range_eq_nil, List.length_eq_zero_iff]
  rw [nonDominatedSort_eq, positionFronts, sortPositions, ← counted, peel_of_none hrange hnone, List.map_singleton,
    map_getD_range]

theorem fronts_of_uncovered_nil (hsize : 0 < m.size) (h : uncoveredColumns m = []) :
    (preferenceSort pareto m).fronts = [List.range m.size] := by
  have hfirst := preferred_eq_nil.2 h
  have hrest : unpreferred m = List.range m.size := by
    rw [unpreferred, hfirst]
    exact List.filter_eq_self.2 fun _ _ => rfl
  have hrange : List.range m.size ≠ [] := by
    rw [ne_eq, List.range_eq_nil]
    omega
  rw [preferenceSort_of_pos pareto hsize, if_pos hfirst, hrest, h, nonDominatedSort_nil hrange]
  rfl

/-! ## Main statement -/

/-- The choices of the uncovered columns. -/
theorem forall₂_bestRow (hm : m.NaNFree) (hsize : 0 < m.size) (columns : List Nat) :
    List.Forall₂ m.IsFirstLeast columns (columns.map (bestRow m)) := by
  rw [List.forall₂_map_right_iff, List.forall₂_same]
  exact fun c _ => bestRow_isFirstLeast hm hsize c

theorem nonDominatedSort?_unpreferred (m : Matrix) :
    nonDominatedSort? pareto m (unpreferred m) (uncoveredColumns m) =
      .ok (nonDominatedSort pareto m (unpreferred m) (uncoveredColumns m)) :=
  nonDominatedSort?_eq_ok (fun _ hi => (mem_unpreferred.1 hi).1)
    fun _ hc => List.mem_range.1 (List.mem_filter.1 hc).1

/-- Preference sorting of a matrix of numbers. With a row to look at, the uncovered columns are those with all rows
above zero, in order; if there are some, the first front lists the first of the least rows of each, every row at its
first choice, and the other fronts are the Pareto fronts of the other rows on these columns. The fronts part all rows,
and a matrix with rows but without uncovered columns has one front. -/
theorem preferenceSort_pareto (m : Matrix) (hm : m.NaNFree) :
    (m.size = 0 → (preferenceSort pareto m).uncovered = [] ∧ (preferenceSort pareto m).fronts = []) ∧
      (0 < m.size → (preferenceSort pareto m).uncovered =
        (List.range m.columns).filter fun c => ∀ i < m.size, 0 < m.value i c) ∧
      ((preferenceSort pareto m).uncovered ≠ [] → ∃ first choices r,
        List.Forall₂ m.IsFirstLeast (preferenceSort pareto m).uncovered choices ∧
        first.Nodup ∧ (∀ b, b ∈ first ↔ b ∈ choices) ∧ (first.Pairwise fun a b => choices.idxOf a < choices.idxOf b) ∧
        nonDominatedSort? pareto m ((List.range m.size).filter fun i => i ∉ first) (preferenceSort pareto m).uncovered =
          .ok r ∧
        m.ParetoFronts ((List.range m.size).filter fun i => i ∉ first) (preferenceSort pareto m).uncovered r.ranks
          r.fronts ∧
        (preferenceSort pareto m).fronts = first :: r.fronts) ∧
      [] ∉ (preferenceSort pareto m).fronts ∧
      (preferenceSort pareto m).fronts.flatten.Perm (List.range m.size) ∧
      ((preferenceSort pareto m).uncovered = [] → 0 < m.size →
        (preferenceSort pareto m).fronts = [List.range m.size]) := by
  refine ⟨fun hsize => ?_, fun hsize => ?_, fun huncovered => ?_, nil_notMem_preferenceSort pareto m,
    flatten_preferenceSort_perm hm, fun huncovered hsize => ?_⟩
  · rw [preferenceSort_of_isEmpty pareto hsize]
    exact ⟨rfl, rfl⟩
  · rw [preferenceSort_of_pos pareto hsize]
    exact uncoveredColumns_eq hm hsize
  · have hsize : 0 < m.size := by
      by_contra h
      rw [preferenceSort_of_isEmpty pareto (by omega)] at huncovered
      exact huncovered rfl
    rw [preferenceSort_of_pos pareto hsize] at huncovered ⊢
    have hfirst : preferred m ≠ [] := fun h => huncovered (preferred_eq_nil.1 h)
    have hrest : ((List.range m.size).filter fun i => i ∉ preferred m) = unpreferred m := by
      rw [unpreferred, Matrix.allRows]
      exact List.filter_congr fun i _ => by simp
    refine ⟨preferred m, (uncoveredColumns m).map (bestRow m),
      nonDominatedSort pareto m (unpreferred m) (uncoveredColumns m), forall₂_bestRow hm hsize _, nodup_eraseDups _,
      fun b => List.mem_eraseDups, eraseDups_pairwise_idxOf _, ?_, ?_, ?_⟩
    · rw [hrest]
      exact nonDominatedSort?_unpreferred m
    · rw [hrest]
      exact paretoFronts_nonDominatedSort hm _ _
    · rw [if_neg hfirst]
      rfl
  · rw [preferenceSort_of_pos pareto hsize] at huncovered
    exact fronts_of_uncovered_nil hsize huncovered

theorem preferenceSort_unevenRows :
    preferenceSort pareto unevenRows = { fronts := [[1], [2], [0]], uncovered := [1] } := by
  decide +kernel

/-- The first column is covered, the second is not, although one of its entries is an infinity: row 1 is chosen for it,
and of the other two rows the last dominates the first. -/
theorem preferenceSort_pareto_unevenRows :
    unevenRows.NaNFree ∧ 0 < unevenRows.size ∧ (preferenceSort pareto unevenRows).uncovered = [1] ∧
      (preferenceSort pareto unevenRows).fronts = [[1], [2], [0]] ∧
      ∃ r, nonDominatedSort? pareto unevenRows [0, 2] [1] = .ok r ∧ r.fronts = [[2], [0]] ∧
        unevenRows.ParetoFronts [0, 2] [1] r.ranks r.fronts := by
  obtain ⟨-, -, hsorted, -⟩ := preferenceSort_pareto unevenRows unevenRows_nanFree
  rw [preferenceSort_unevenRows] at hsorted ⊢
  obtain ⟨first, choices, r, -, -, -, -, hr, hranks, hfronts⟩ := hsorted (List.cons_ne_nil _ _)
  obtain ⟨rfl, hrest⟩ := List.cons.inj hfronts
  exact ⟨unevenRows_nanFree, by decide, rfl, rfl, r, hr, hrest.symm, hranks⟩

/-- One column and no rows. -/
def noRows : Matrix := ⟨#[], 1, by simp⟩

/-- The evaluation of an empty population has no row that is not above zero, and yet its column is not uncovered. -/
theorem preferenceSort_noRows :
    Matrix.evaluate ([] : List Unit) #[{ fitness := fun _ => 1 }] [0] = .ok noRows ∧ noRows.NaNFree ∧
      (preferenceSort pareto noRows).uncovered ≠
        (List.range noRows.columns).filter fun c => ∀ i < noRows.size, 0 < noRows.value i c := by
  have hnan : noRows.NaNFree := by
    unfold Matrix.NaNFree noRows
    decide
  exact ⟨rfl, hnan, by decide⟩

end CoverSearch
