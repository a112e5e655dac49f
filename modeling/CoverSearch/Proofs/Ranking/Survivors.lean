import CoverSearch.Proofs.Ranking.Preference
import Mathlib.Data.List.Nodup
import Mathlib.Data.Prod.Lex

/-!
# Survivors

Whatever the number of survivors, the loop over the fronts fills them up with a first part of one list of all rows: the
fronts in turn, each sorted. The fronts part the rows and a sort keeps them, so this list holds every row once; and as
the sort is stable, a row stands in it by the number of its front, its score there, and its place there.

* `survivalOrder` : the list; `survivors_eq_take` : survivors are a first part of it;
* `pairwise_mergeSort_idxOf` : what a stable sort by a key does to a list without repeats;
* `survivalKey` : where a row stands; `survivalOrder_pairwise` : the list ascends by it;
* `survivors_pareto` : the result as a whole.
-/

namespace CoverSearch

variable {m : Matrix} {size a q : Nat} {fronts : List (List Nat)} {front : List Nat}

/-- All rows, front by front, each front by sub-vector dominance. -/
def survivalOrder (s : Strategy) (m : Matrix) : List Nat :=
  (preferenceSort s m).fronts.flatMap fun front => svdSort m front m.allColumns

/-! ## Filling up -/

theorem take_append_take (selected l rest : List Nat) (size : Nat) :
    (selected ++ l.take (size - selected.length) ++ rest).take size = (selected ++ (l ++ rest)).take size := by
  simp only [List.append_assoc, List.take_append, List.take_take, List.length_take, Nat.min_self]
  congr 3
  omega

theorem fillUp_eq_take {selected : List Nat} (h : selected.length ≤ size) :
    fillUp m size selected fronts =
      (selected ++ fronts.flatMap fun front => svdSort m front m.allColumns).take size := by
  induction fronts generalizing selected with
  | nil => rw [fillUp, List.flatMap_nil, List.append_nil, List.take_of_length_le h]
  | cons front fronts ih =>
    rw [fillUp]
    split <;> rename_i hroom
    · rw [List.take_append_of_le_length hroom, List.take_of_length_le h]
    · have hlen : (selected ++ (svdSort m front m.allColumns).take (size - selected.length)).length ≤ size := by
        rw [List.length_append, List.length_take]
        omega
      rw [ih hlen, take_append_take, List.flatMap_cons]

theorem survivors_eq_take (s : Strategy) (m : Matrix) (size : Nat) :
    survivors s m size = (survivalOrder s m).take size := fillUp_eq_take (Nat.zero_le size)

/-! ## The sort of a front -/

/-- A list without repeats is sorted by key, and where keys are equal by place. -/
theorem pairwise_mergeSort_idxOf {l : List Nat} (hl : l.Nodup) (f : Nat → Nat) :
    (l.mergeSort fun a b => f a ≤ f b).Pairwise fun a b => f a < f b ∨ f a = f b ∧ l.idxOf a < l.idxOf b := by
  -- the stable sort is the sort of pairs of element and place
  have hsorted := @List.pairwise_mergeSort _ (List.zipIdxLE fun a b : Nat => decide (f a ≤ f b))
    (by grind [List.zipIdxLE]) (by grind [List.zipIdxLE]) l.zipIdx
  have hperm := List.mergeSort_perm l.zipIdx (List.zipIdxLE fun a b : Nat => decide (f a ≤ f b))
  have hplaces : (l.zipIdx.map (·.1)).Nodup := by rwa [List.zipIdx_map_fst]
  rw [← List.mergeSort_zipIdx, List.pairwise_map]
  refine (hsorted.and (hperm.nodup_iff.2 (List.Nodup.of_map _ hplaces))).imp_of_mem ?_
  intro x y hx hy ⟨hle, hne⟩
  have hxi : l[x.2]? = some x.1 := List.mk_mem_zipIdx_iff_getElem?.1 (hperm.mem_iff.1 hx)
  have hyi : l[y.2]? = some y.1 := List.mk_mem_zipIdx_iff_getElem?.1 (hperm.mem_iff.1 hy)
  grind [List.zipIdxLE, List.Nodup.idxOf_getElem]

theorem svdSort_eq_mergeSort (m : Matrix) (members columns : List Nat) : svdSort m members columns =
    members.mergeSort fun a b => svdScore m members columns a ≤ svdScore m members columns b := by
  have hzip : members.zip (subvectorDominance m members columns) =
      members.map fun i => (i, svdScore m members columns i) := by
    rw [subvectorDominance, ← List.zip_map']
    simp
  rw [svdSort, hzip, List.map_mergeSort (s := fun a b => svdScore m members columns a ≤ svdScore m members columns b)]
  · rw [List.map_map]
    exact congrArg (List.mergeSort · _) (List.map_id _)
  · intro a ha b hb
    obtain ⟨i, -, rfl⟩ := List.mem_map.1 ha
    obtain ⟨j, -, rfl⟩ := List.mem_map.1 hb
    rfl

theorem svdSort_perm (m : Matrix) (members columns : List Nat) : (svdSort m members columns).Perm members := by
  rw [svdSort_eq_mergeSort]
  exact List.mergeSort_perm _ _

/-! ## Where a row stands -/

/-- The front of a row, its score among the members of that front over all columns, and its place in it. -/
def survivalKey (m : Matrix) (i : Nat) : Nat ×ₗ Nat ×ₗ Nat :=
  let fronts := (preferenceSort pareto m).fronts
  let front := fronts.getD (rankIn fronts i) []
  toLex (rankIn fronts i, toLex (svdScore m front m.allColumns i, front.idxOf i))

/-- Where nothing is in two fronts, a member's rank is the number of its front. -/
theorem rankIn_eq (hnodup : fronts.flatten.Nodup) (hq : fronts[q]? = some front) (ha : a ∈ front) :
    rankIn fronts a = q := by
  obtain ⟨hlt, rfl⟩ := List.getElem?_eq_some_iff.1 hq
  have hfind : fronts.findIdx? (fun f => f.contains a) = some q := by
    rw [List.findIdx?_eq_some_iff_getElem]
    refine ⟨hlt, by simpa using ha, fun p hp hap => ?_⟩
    exact List.pairwise_iff_getElem.1 (List.nodup_flatten.1 hnodup).2 p q (by omega) hlt hp (by simpa using hap) ha
  rw [rankIn, hfind]
  rfl

theorem survivalKey_eq (hm : m.NaNFree) (hq : (preferenceSort pareto m).fronts[q]? = some front) (ha : a ∈ front) :
    survivalKey m a = toLex (q, toLex (svdScore m front m.allColumns a, front.idxOf a)) := by
  have hnodup := (flatten_preferenceSort_perm hm).nodup_iff.2 List.nodup_range
  simp only [survivalKey, rankIn_eq hnodup hq ha, List.getD_eq_getElem?_getD, hq, Option.getD_some]

theorem survivalOrder_perm (hm : m.NaNFree) : (survivalOrder pareto m).Perm (List.range m.size) := by
  refine List.Perm.trans ?_ (flatten_preferenceSort_perm hm)
  rw [survivalOrder, ← List.flatMap_id]
  exact List.Perm.flatMap_left _ fun front _ => svdSort_perm m front m.allColumns

theorem survivalOrder_pairwise (hm : m.NaNFree) :
    (survivalOrder pareto m).Pairwise fun a b => survivalKey m a < survivalKey m b := by
  have hnodup := (flatten_preferenceSort_perm hm).nodup_iff.2 List.nodup_range
  rw [survivalOrder, List.pairwise_flatMap]
  constructor
  · intro front hfront
    obtain ⟨q, hq⟩ := List.mem_iff_getElem?.1 hfront
    rw [svdSort_eq_mergeSort]
    refine (pairwise_mergeSort_idxOf ((List.nodup_flatten.1 hnodup).1 front hfront) _).imp_of_mem ?_
    intro a b ha hb h
    rw [survivalKey_eq hm hq (List.mem_mergeSort.1 ha), survivalKey_eq hm hq (List.mem_mergeSort.1 hb),
      Prod.Lex.toLex_lt_toLex, Prod.Lex.toLex_lt_toLex]
    exact Or.inr ⟨rfl, h⟩
  · rw [List.pairwise_iff_getElem]
    intro p q hp hq hpq a ha b hb
    rw [survivalKey_eq hm (List.getElem?_eq_getElem hp) ((svdSort_perm _ _ _).mem_iff.1 ha),
      survivalKey_eq hm (List.getElem?_eq_getElem hq) ((svdSort_perm _ _ _).mem_iff.1 hb), Prod.Lex.toLex_lt_toLex]
    exact Or.inl hpq

/-! ## A first part -/

theorem length_survivors (hm : m.NaNFree) (size : Nat) : (survivors pareto m size).length = min size m.size := by
  rw [survivors_eq_take, List.length_take, (survivalOrder_perm hm).length_eq, List.length_range]

theorem nodup_survivors (hm : m.NaNFree) (size : Nat) : (survivors pareto m size).Nodup := by
  rw [survivors_eq_take]
  exact ((survivalOrder_perm hm).nodup_iff.2 List.nodup_range).sublist (List.take_sublist _ _)

theorem lt_of_mem_survivors (hm : m.NaNFree) (h : a ∈ survivors pareto m size) : a < m.size := by
  rw [survivors_eq_take] at h
  exact List.mem_range.1 ((survivalOrder_perm hm).mem_iff.1 (List.mem_of_mem_take h))

/-- What is left out of a first part is in no better front. -/
theorem rankIn_le_of_survivalKey_lt {b : Nat} (h : survivalKey m a < survivalKey m b) :
    rankIn (preferenceSort pareto m).fronts a ≤ rankIn (preferenceSort pareto m).fronts b := by
  rcases Prod.Lex.lt_iff.1 h with h | ⟨h, -⟩
  · exact Nat.le_of_lt h
  · exact Nat.le_of_eq h

/-! ## Main statement -/

/-- On a matrix of numbers there is one order of all rows of which the survivors are a first part, as many as are asked
for or as there are. It ascends by front, in a front by score among its members over all columns, and among equal scores
by place in the front. So survivors are distinct, fewer survivors are a first part of more, and no row is discarded for
one in a worse front. -/
theorem survivors_pareto (m : Matrix) (hm : m.NaNFree) : ∃ order : List Nat,
    order.Perm (List.range m.size) ∧ (order.Pairwise fun a b => survivalKey m a < survivalKey m b) ∧
    (∀ size, survivors pareto m size = order.take (min size m.size) ∧
      (survivors pareto m size).length = min size m.size ∧ (survivors pareto m size).Nodup ∧
      ∀ a ∈ survivors pareto m size, a < m.size) ∧
    (∀ size size', size ≤ size' → survivors pareto m size <+: survivors pareto m size') ∧
    ∀ size, ∀ a ∈ survivors pareto m size, ∀ b < m.size, b ∉ survivors pareto m size →
      rankIn (preferenceSort pareto m).fronts a ≤ rankIn (preferenceSort pareto m).fronts b := by
  have hperm := survivalOrder_perm hm
  have hpairwise := survivalOrder_pairwise hm
  refine ⟨survivalOrder pareto m, hperm, hpairwise, fun size => ⟨?_, length_survivors hm size, nodup_survivors hm size,
    fun a ha => lt_of_mem_survivors hm ha⟩, fun size size' h => ?_, fun size a ha b hb hnot => ?_⟩
  · rw [survivors_eq_take, List.take_eq_take_min, hperm.length_eq, List.length_range]
  · rw [survivors_eq_take, survivors_eq_take]
    exact List.take_prefix_take_left h
  · rw [survivors_eq_take] at ha hnot
    have hrest : b ∈ (survivalOrder pareto m).drop size := by
      have hmem := hperm.mem_iff.2 (List.mem_range.2 hb)
      rw [← List.take_append_drop size (survivalOrder pareto m)] at hmem
      exact (List.mem_append.1 hmem).resolve_left hnot
    rw [← List.take_append_drop size (survivalOrder pareto m)] at hpairwise
    exact rankIn_le_of_survivalKey_lt ((List.pairwise_append.1 hpairwise).2.2 a ha b hrest)

/-- The first row is best everywhere and the second beaten everywhere; the others tie in one front. -/
def tiedRows : Matrix := ⟨#[#[0.5, 0.5, 0.5], #[4, 4, 4], #[1, 1, 3], #[3, 1, 1]], 3, by simp⟩

theorem tiedRows_nanFree : tiedRows.NaNFree := by
  unfold Matrix.NaNFree tiedRows
  decide +kernel

/-- Two survivors cut the tied front, ten are all rows. -/
theorem survivors_pareto_tiedRows : tiedRows.NaNFree ∧ (preferenceSort pareto tiedRows).fronts = [[0], [2, 3], [1]] ∧
    (survivors pareto tiedRows 2).length = 2 ∧ survivors pareto tiedRows 2 <+: survivors pareto tiedRows 10 ∧
    (survivors pareto tiedRows 10).Perm (List.range 4) := by
  obtain ⟨order, hperm, -, hsize, hprefix, -⟩ := survivors_pareto tiedRows tiedRows_nanFree
  refine ⟨tiedRows_nanFree, by decide +kernel, (hsize 2).2.1, hprefix 2 10 (by decide), ?_⟩
  rw [(hsize 10).1, List.take_of_length_le (by rw [hperm.length_eq]; decide)]
  exact hperm

end CoverSearch
