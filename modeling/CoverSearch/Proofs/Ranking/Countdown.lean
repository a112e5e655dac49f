import CoverSearch.Proofs.Ranking.Cycles
import CoverSearch.Proofs.Ranking.Fronts
import Mathlib.Logic.Function.Basic

/-!
# Sorting by counting down

The rounds of `peel` take the whole front off a counter at once. Here the counters go down one by one, in the order in
which dominators and dominated positions are visited: a counter at zero cannot be lowered, and a position is placed when
its counter gets to zero. For any rule of dominance this loop comes to an end without lowering a counter at zero, with
the fronts and ranks of `nonDominatedSort`.

* `Tally.lower?`, `Tally.release?`, `Countdown` : one dominator of one position, one front, and the loop;
* `Tally.Released` : what the visits of a round have done; `Tally.exists_released` : they can be made as long as no
  position is visited more often than its counter says;
* `Tally.Counts` : what holds between the rounds; `Tally.Counts.exists_round` : a round keeps it;
* `Tally.Counts.exists_countdown` : hence the loop ends as `peel` does;
* `nonDominatedSort?_countdown` : the result as a whole, with the positions that fronts leave out.
-/

namespace CoverSearch

/-- What the loop keeps for each position: how many dominators it waits for and its rank; and the positions that have
been freed in this round, in the order in which they were. -/
structure Tally where
  above : Nat → Nat
  rank : Nat → Nat
  free : List Nat

namespace Tally

/-- One dominator of position `j` less; a position without dominators gets a rank. Nothing can be taken from zero. -/
def lower? (rank : Nat) (t : Tally) (j : Nat) : Option Tally :=
  match t.above j with
  | 0 => none
  | n + 1 => some {
      above := Function.update t.above j n
      rank := if n = 0 then Function.update t.rank j rank else t.rank
      free := if n = 0 then t.free ++ [j] else t.free }

/-- The positions below `n` that position `i` dominates. -/
def dominated (dominates : Nat → Nat → Bool) (n i : Nat) : List Nat := (List.range n).filter (dominates i)

/-- One dominator less for each position that a member of the front dominates. -/
def release? (dominates : Nat → Nat → Bool) (n rank : Nat) (front : List Nat) (t : Tally) : Option Tally :=
  (front.flatMap (dominated dominates n)).foldlM (lower? rank) { t with free := [] }

/-- Counters before the first round. -/
def start (dominates : Nat → Nat → Bool) (n : Nat) : Tally :=
  { above := fun j => (List.range n).countP fun i => dominates i j
    rank := fun _ => 0
    free := [] }

end Tally

/-- `Countdown dominates n placed front t fronts ranks` : with some fronts placed and one front to be placed next, the
loop comes to an end with these fronts and ranks. Freed positions are the next front, in ascending order. -/
inductive Countdown (dominates : Nat → Nat → Bool) (n : Nat) :
    List (List Nat) → List Nat → Tally → List (List Nat) → (Nat → Nat) → Prop
  | stop {placed t} : Countdown dominates n placed [] t placed t.rank
  | round {placed front t t' fronts ranks} (hfront : front ≠ [])
      (hrelease : t.release? dominates n (placed.length + 1) front = some t')
      (hrest : Countdown dominates n (placed ++ [front]) (t'.free.mergeSort (· ≤ ·)) t' fronts ranks) :
      Countdown dominates n placed front t fronts ranks

/-- The loop from its start: the first front is that of the positions below `n` that nothing dominates. -/
def CountsDown (dominates : Nat → Nat → Bool) (n : Nat) (fronts : List (List Nat)) (ranks : Nat → Nat) : Prop :=
  Countdown dominates n [] ((List.range n).filter fun j => (Tally.start dominates n).above j == 0)
    (Tally.start dominates n) fronts ranks

variable {dominates : Nat → Nat → Bool} {n rank j k : Nat} {t t' t'' : Tally} {l ps front : List Nat}
  {placed fronts : List (List Nat)}

namespace Tally

/-! ## The visits of a round -/

/-- The positions `l` have been visited, each as often as it stands there; those whose counter got to zero have a rank
and are free. -/
structure Released (rank : Nat) (t : Tally) (l : List Nat) (t' : Tally) : Prop where
  above_add : ∀ k, t'.above k + l.count k = t.above k
  rank_eq : ∀ k, t'.rank k = if k ∈ l ∧ t'.above k = 0 then rank else t.rank k
  count_free : ∀ k, t'.free.count k = t.free.count k + if k ∈ l ∧ t'.above k = 0 then 1 else 0

theorem Released.nil (rank : Nat) (t : Tally) : t.Released rank [] t := ⟨by simp, by simp, by simp⟩

/-- Of two visits of a position the first cannot be the one that frees it. -/
theorem Released.trans (h : t.Released rank l t') (h' : t'.Released rank ps t'') : t.Released rank (l ++ ps) t'' := by
  have hlate : ∀ k, k ∈ ps → t'.above k ≠ 0 := by
    intro k hk
    have hcount := List.count_pos_iff.2 hk
    have hadd := h'.above_add k
    omega
  have hstays : ∀ k, k ∉ ps → t''.above k = t'.above k := by
    intro k hk
    rw [← h'.above_add k, List.count_eq_zero.2 hk, Nat.add_zero]
  refine ⟨fun k => ?_, fun k => ?_, fun k => ?_⟩
  · rw [List.count_append, ← h.above_add k, ← h'.above_add k]
    omega
  · simp only [h'.rank_eq, h.rank_eq, List.mem_append]
    grind
  · simp only [h'.count_free, h.count_free, List.mem_append]
    grind

/-- A counter above zero can be lowered. -/
theorem exists_lower (rank : Nat) (h : 0 < t.above j) : ∃ t', t.lower? rank j = some t' ∧ t.Released rank [j] t' := by
  obtain ⟨c, hc⟩ := Nat.exists_eq_add_one.2 h
  rw [lower?, hc]
  refine ⟨_, rfl, fun k => ?_, fun k => ?_, fun k => ?_⟩
  all_goals
    by_cases hk : k = j
    · subst hk
      by_cases hzero : c = 0 <;> simp [hc, hzero]
    · by_cases hzero : c = 0 <;> simp [hk, hzero, Ne.symm hk]

/-- No counter is lowered at zero as long as no position is visited more often than its counter says. -/
theorem exists_released (rank : Nat) (h : ∀ k, l.count k ≤ t.above k) :
    ∃ t', l.foldlM (lower? rank) t = some t' ∧ t.Released rank l t' := by
  induction l generalizing t with
  | nil => exact ⟨t, rfl, .nil rank t⟩
  | cons j l ih =>
    obtain ⟨t₁, hlower, hfirst⟩ := exists_lower (t := t) (j := j) rank (by
      have hj := h j
      rw [List.count_cons_self] at hj
      omega)
    obtain ⟨t₂, hfold, hrest⟩ := ih (t := t₁) fun k => by
      have hk := h k
      rw [← List.singleton_append, List.count_append, ← hfirst.above_add k] at hk
      omega
    exact ⟨t₂, by rw [List.foldlM_cons, hlower]; exact hfold, hfirst.trans hrest⟩

theorem count_dominated (i : Nat) :
    (dominated dominates n i).count j = if j < n ∧ dominates i j = true then 1 else 0 := by
  rw [dominated, (List.nodup_range.filter _).count]
  simp only [List.mem_filter, List.mem_range]

/-- A round visits a position once for each of its dominators in the front. -/
theorem count_flatMap_dominated (hj : j < n) (front : List Nat) :
    (front.flatMap (dominated dominates n)).count j = front.countP fun i => dominates i j := by
  induction front with
  | nil => rfl
  | cons i front ih =>
    rw [List.flatMap_cons, List.count_append, ih, count_dominated, List.countP_cons]
    simp only [hj, true_and, Nat.add_comm]

theorem mem_flatMap_dominated :
    j ∈ front.flatMap (dominated dominates n) ↔ j < n ∧ ∃ i ∈ front, dominates i j = true := by
  simp only [List.mem_flatMap, dominated, List.mem_filter, List.mem_range]
  grind

/-! ## Between the rounds -/

/-- With some fronts placed and the positions `ps` waiting: the counters hold the waiting dominators, the ranks are
those of the placed fronts and of the next one, and none but waiting positions has a waiting dominator. -/
structure Counts (dominates : Nat → Nat → Bool) (n : Nat) (placed : List (List Nat)) (ps : List Nat) (t : Tally) :
    Prop where
  above_eq : ∀ j < n, t.above j = ps.countP fun i => dominates i j
  rank_eq : ∀ j < n, t.rank j = rankIn (placed ++ [ahead dominates ps]) j
  closed : ∀ j < n, ∀ i ∈ ps, dominates i j = true → j ∈ ps
  apart : ∀ f ∈ placed, ∀ j ∈ f, j ∉ ps
  sorted : ps.Pairwise (· < ·)
  lt : ∀ j ∈ ps, j < n

theorem rankIn_concat (placed : List (List Nat)) (front : List Nat) (j : Nat) : rankIn (placed ++ [front]) j =
    if j ∈ front ∧ j ∉ placed.flatten then placed.length else rankIn placed j := by
  by_cases hj : j ∈ placed.flatten
  · obtain ⟨f, hf, hjf⟩ := List.mem_flatten.1 hj
    have hfind : placed.findIdx? (fun f => f.contains j) = some _ :=
      List.findIdx?_eq_some_of_exists ⟨f, hf, List.contains_iff_mem.2 hjf⟩
    rw [rankIn, rankIn, List.findIdx?_append, hfind, Option.some_or, if_neg fun h => h.2 hj]
  · have hfind := findIdx?_of_notMem hj
    rw [rankIn, rankIn, List.findIdx?_append, hfind, Option.none_or]
    by_cases hfront : j ∈ front <;> simp [hfront, hj]

theorem counts_start (dominates : Nat → Nat → Bool) (n : Nat) :
    (start dominates n).Counts dominates n [] (List.range n) where
  above_eq := fun _ _ => rfl
  rank_eq := by
    intro j _
    rw [rankIn_concat]
    simp [start, rankIn]
  closed := fun j hj _ _ _ => List.mem_range.2 hj
  apart := by simp
  sorted := List.pairwise_lt_range
  lt := fun _ hj => List.mem_range.1 hj

namespace Counts

/-- The counters stand above the visits of the round. -/
theorem count_le (h : t.Counts dominates n placed ps) (k : Nat) :
    ((ahead dominates ps).flatMap (dominated dominates n)).count k ≤ t.above k := by
  rcases Nat.lt_or_ge k n with hk | hk
  · rw [count_flatMap_dominated hk, h.above_eq k hk]
    exact (ahead_sublist dominates ps).countP_le
  · rw [List.count_eq_zero.2 fun hmem => absurd (mem_flatMap_dominated.1 hmem).1 (by omega)]
    exact Nat.zero_le _

/-- What is placed now waits no longer. -/
theorem released_apart (h : t.Counts dominates n placed ps) :
    ∀ f ∈ placed ++ [ahead dominates ps], ∀ j ∈ f, j ∉ behind dominates ps := by
  intro f hf j hj hjps
  rcases List.mem_append.1 hf with hf | hf
  · exact h.apart f hf j hj ((behind_sublist dominates ps).subset hjps)
  · rw [List.mem_singleton.1 hf] at hj
    exact ((mem_ahead dominates).1 hj).2 hjps

variable (h : t.Counts dominates n placed ps)
  (hrel : t.Released rank ((ahead dominates ps).flatMap (dominated dominates n)) t')
include h hrel

theorem above_released (hj : j < n) : t'.above j = (behind dominates ps).countP fun i => dominates i j := by
  have hsplit := (ahead_append_behind_perm dominates ps).countP_eq fun i => dominates i j
  have hadd := hrel.above_add j
  rw [List.countP_append] at hsplit
  rw [count_flatMap_dominated hj, h.above_eq j hj] at hadd
  omega

/-- The freed positions are the next front. -/
theorem freed_iff : (j ∈ (ahead dominates ps).flatMap (dominated dominates n) ∧ t'.above j = 0) ↔
    j ∈ ahead dominates (behind dominates ps) := by
  rw [mem_flatMap_dominated, mem_ahead]
  constructor
  · rintro ⟨⟨hj, i, hi, hd⟩, hzero⟩
    have hips := ((mem_ahead dominates).1 hi).1
    rw [h.above_released hrel hj, List.countP_eq_zero] at hzero
    refine ⟨(mem_behind dominates).2 ⟨h.closed j hj i hips hd, i, hips, hd⟩, fun hmem => ?_⟩
    obtain ⟨-, i', hi', hd'⟩ := (mem_behind dominates).1 hmem
    exact hzero i' hi' hd'
  · rintro ⟨hj, hnot⟩
    obtain ⟨hjps, i, hi, hd⟩ := (mem_behind dominates).1 hj
    have hlt := h.lt j hjps
    rw [h.above_released hrel hlt, List.countP_eq_zero]
    have hfree : ∀ i' ∈ behind dominates ps, ¬ dominates i' j = true := fun i' hi' hd' =>
      hnot ((mem_behind dominates).2 ⟨hj, i', hi', hd'⟩)
    exact ⟨⟨hlt, i, (mem_ahead dominates).2 ⟨hi, fun hib => hfree i hib hd⟩, hd⟩, hfree⟩

theorem mergeSort_free (hfree : t.free = []) : t'.free.mergeSort (· ≤ ·) = ahead dominates (behind dominates ps) := by
  have hcount : ∀ k, t'.free.count k = if k ∈ ahead dominates (behind dominates ps) then 1 else 0 := by
    intro k
    rw [hrel.count_free, hfree, List.count_nil, Nat.zero_add]
    simp only [h.freed_iff hrel]
  have hnodup : t'.free.Nodup := by
    rw [List.nodup_iff_count_le_one]
    intro k
    rw [hcount]
    split <;> omega
  have hsorted : (t'.free.mergeSort (· ≤ ·)).Pairwise (· < ·) := by
    have hle := List.sortedLE_mergeSort (l := t'.free).pairwise
    exact (hle.and ((List.mergeSort_perm _ _).nodup_iff.2 hnodup)).imp fun hab => by omega
  refine hsorted.eq_of_mem_iff ((h.sorted.sublist (behind_sublist dominates ps)).sublist (ahead_sublist dominates _))
    fun k => ?_
  rw [List.mem_mergeSort, ← List.count_pos_iff, hcount]
  split <;> simp_all

/-- What a round keeps. -/
theorem released (hrank : rank = placed.length + 1) :
    t'.Counts dominates n (placed ++ [ahead dominates ps]) (behind dominates ps) where
  above_eq := fun j hj => h.above_released hrel hj
  rank_eq := by
    intro j hj
    have hapart : j ∈ ahead dominates (behind dominates ps) → j ∉ (placed ++ [ahead dominates ps]).flatten := by
      intro hnext hmem
      obtain ⟨f, hf, hjf⟩ := List.mem_flatten.1 hmem
      exact (h.released_apart f hf) j hjf ((ahead_sublist dominates _).subset hnext)
    rw [hrel.rank_eq, h.rank_eq j hj, rankIn_concat (placed ++ [ahead dominates ps]), hrank, List.length_append]
    simp only [h.freed_iff hrel, List.length_singleton]
    exact if_congr (iff_self_and.2 hapart) rfl rfl
  closed := by
    intro j hj i hi hd
    have hips := (behind_sublist dominates ps).subset hi
    exact (mem_behind dominates).2 ⟨h.closed j hj i hips hd, i, hips, hd⟩
  apart := h.released_apart
  sorted := h.sorted.sublist (behind_sublist dominates ps)
  lt := fun j hj => h.lt j ((behind_sublist dominates ps).subset hj)

end Counts

/-- One round, from one front to the next. -/
theorem Counts.exists_round (h : t.Counts dominates n placed ps) :
    ∃ t', t.release? dominates n (placed.length + 1) (ahead dominates ps) = some t' ∧
      t'.free.mergeSort (· ≤ ·) = ahead dominates (behind dominates ps) ∧
      t'.Counts dominates n (placed ++ [ahead dominates ps]) (behind dominates ps) := by
  have hclear : { t with free := [] }.Counts dominates n placed ps :=
    ⟨h.above_eq, h.rank_eq, h.closed, h.apart, h.sorted, h.lt⟩
  obtain ⟨t', ht', hrel⟩ := exists_released (placed.length + 1) hclear.count_le
  exact ⟨t', ht', hclear.mergeSort_free hrel rfl, hclear.released hrel rfl⟩

/-! ## The loop -/

/-- From a front on the loop ends with the fronts of `peel`. -/
theorem Counts.exists_countdown (h : t.Counts dominates n placed ps) :
    ∃ ranks, Countdown dominates n placed (ahead dominates ps) t
        (placed ++ peel dominates (counted dominates ps)) ranks ∧
      ∀ j < n, ranks j = rankIn (placed ++ peel dominates (counted dominates ps)) j := by
  -- every round leaves fewer positions waiting
  induction hlen : ps.length using Nat.strong_induction_on generalizing placed ps t with
  | _ len ih =>
    rw [peel_counted]
    split <;> rename_i hfront
    · rw [hfront, List.append_nil]
      refine ⟨t.rank, .stop, fun j hj => ?_⟩
      rw [h.rank_eq j hj, hfront, rankIn_concat, if_neg fun hmem => absurd hmem.1 List.not_mem_nil]
    · obtain ⟨t', hrelease, hnext, h'⟩ := h.exists_round
      have hless := (ahead_append_behind_perm dominates ps).length_eq
      have hpos := List.length_pos_iff.2 hfront
      rw [List.length_append] at hless
      obtain ⟨ranks, hrest, hranks⟩ := ih _ (by omega) h' rfl
      rw [List.append_assoc, List.singleton_append] at hrest hranks
      exact ⟨ranks, .round hfront hrelease (hnext ▸ hrest), hranks⟩

end Tally

theorem exists_countsDown (dominates : Nat → Nat → Bool) (n : Nat) :
    ∃ ranks, CountsDown dominates n (sortPositions dominates n) ranks ∧
      ∀ j < n, ranks j = rankIn (sortPositions dominates n) j := by
  have hfront : ((List.range n).filter fun j => (Tally.start dominates n).above j == 0) =
      ahead dominates (List.range n) := by
    refine List.filter_congr fun j _ => ?_
    rw [Bool.eq_iff_iff, beq_iff_eq, Bool.not_eq_true', ← countP_eq_zero_iff_any]
    rfl
  simp only [CountsDown, hfront]
  exact (Tally.counts_start dominates n).exists_countdown

/-! ## Main statement -/

/-- The one comparison made for two positions of members, the lesser one first, says that the first given dominates. -/
def Strategy.Beats (s : Strategy) (m : Matrix) (members columns : List Nat) (i j : Nat) : Prop :=
  i < j ∧ j < members.length ∧
      s.compare (m.row (members.getD i 0)) (m.row (members.getD j 0)) columns = .left ∨
    j < i ∧ i < members.length ∧
      s.compare (m.row (members.getD j 0)) (m.row (members.getD i 0)) columns = .right

theorem within_memberBeats (s : Strategy) (m : Matrix) (members columns : List Nat) :
    Within (List.range members.length) (memberBeats s m members.toArray columns · ·) = s.Beats m members columns := by
  funext i j
  rw [Within, List.mem_range, List.mem_range, memberBeats, beats, Strategy.Beats, getD_toArray, getD_toArray,
    eq_iff_iff]
  rcases Nat.lt_trichotomy i j with h | rfl | h
  · rw [if_pos h, beq_iff_eq]
    constructor
    · rintro ⟨-, hj, hd⟩
      exact Or.inl ⟨h, hj, hd⟩
    · rintro (⟨-, hj, hd⟩ | ⟨h', -⟩)
      · exact ⟨h.trans hj, hj, hd⟩
      · omega
  · simp
  · rw [if_neg (by omega), if_pos h, beq_iff_eq]
    constructor
    · rintro ⟨hi, -, hd⟩
      exact Or.inr ⟨h, hi, hd⟩
    · rintro (⟨h', -⟩ | ⟨-, hi, hd⟩)
      · omega
      · exact ⟨hi, h.trans hi, hd⟩

/-- Sorting by any rule of dominance, on a matrix of any doubles. The loop comes to an end without lowering a counter at
zero, and its fronts hold no position twice. They hold the positions that no cycle of dominance leads to; the others are
in no front and have rank zero. -/
theorem nonDominatedSort?_countdown (s : Strategy) (m : Matrix) (members columns : List Nat)
    (hfits : members.length < 2 ∨ ∀ i ∈ members, i < m.size ∧ s.fits columns (m.row i) = true) : ∃ fronts ranks,
      nonDominatedSort? s m members columns =
        .ok { ranks := (List.range members.length).map ranks
              fronts := fronts.map fun front => front.map fun k => members.getD k 0 } ∧
      CountsDown (memberBeats s m members.toArray columns) members.length fronts ranks ∧
      fronts.flatten.Nodup ∧
      (∀ k, k ∈ fronts.flatten ↔ k < members.length ∧ ¬ BehindCycle (s.Beats m members columns) k) ∧
      ∀ k < members.length, k ∉ fronts.flatten → ranks k = 0 := by
  obtain ⟨ranks, hcount, hranks⟩ := exists_countsDown (memberBeats s m members.toArray columns) members.length
  refine ⟨positionFronts s m members columns, ranks, ?_, hcount, nodup_flatten_peel List.nodup_range, fun k => ?_,
    fun k hk hnot => (hranks k hk).trans (rankIn_of_notMem hnot)⟩
  · have hchecked : (decide (members.length < 2) ||
        members.all fun i => decide (i < m.size) && s.fits columns (m.row i)) = true := by simpa using hfits
    rw [nonDominatedSort?, if_pos hchecked, nonDominatedSort_eq]
    congr 2
    exact List.map_congr_left fun k hk => (hranks k (List.mem_range.1 hk)).symm
  · rw [← within_memberBeats, ← List.mem_range]
    exact mem_flatten_peel_iff

/-- The first three rows dominate each other in a circle, as a NaN is not compared, and the fourth is dominated by them;
the last two are numbers, and less than all of these. -/
def circledRows : Matrix :=
  ⟨#[#[0, Float.ofBits 0x7FF8000000000000, 1], #[1, 0, Float.ofBits 0x7FF8000000000000],
    #[Float.ofBits 0x7FF8000000000000, 1, 0], #[5, 5, 5], #[-1, -1, -1], #[-0.5, -0.5, -0.5]], 3, by simp⟩

theorem circledRows_fits :
    ∀ i ∈ List.range 6, i < circledRows.size ∧ pareto.fits [0, 1, 2] (circledRows.row i) = true := by
  decide +kernel

theorem circledRows_behindCycle : BehindCycle (pareto.Beats circledRows (List.range 6) [0, 1, 2]) 3 := by
  have hbeats : ∀ e ∈ [(0, 1), (1, 2), (2, 0), (0, 3)],
      pareto.Beats circledRows (List.range 6) [0, 1, 2] e.1 e.2 := by
    unfold Strategy.Beats
    decide +kernel
  exact ⟨0, ((Relation.TransGen.single (hbeats (0, 1) (by decide))).tail (hbeats (1, 2) (by decide))).tail
    (hbeats (2, 0) (by decide)), .single (hbeats (0, 3) (by decide))⟩

/-- The last two rows make two fronts. The fourth row is on no cycle but behind one, and in no front. -/
theorem nonDominatedSort?_countdown_circledRows :
    (∀ i ∈ List.range 6, i < circledRows.size ∧ pareto.fits [0, 1, 2] (circledRows.row i) = true) ∧ ∃ fronts ranks,
      nonDominatedSort? pareto circledRows (List.range 6) [0, 1, 2] = .ok ⟨[0, 0, 0, 0, 0, 1], [[4], [5]]⟩ ∧
      CountsDown (memberBeats pareto circledRows (List.range 6).toArray [0, 1, 2]) 6 fronts ranks ∧
      fronts.flatten.Nodup ∧ 3 ∉ fronts.flatten ∧ ranks 3 = 0 := by
  obtain ⟨fronts, ranks, -, hcount, hnodup, hplaced, hrank⟩ :=
    nonDominatedSort?_countdown pareto circledRows (List.range 6) [0, 1, 2] (Or.inr circledRows_fits)
  have hnot : 3 ∉ fronts.flatten := fun hmem => ((hplaced 3).1 hmem).2 circledRows_behindCycle
  refine ⟨circledRows_fits, fronts, ranks, ?_, hcount, hnodup, hnot, hrank 3 (by decide) hnot⟩
  rw [nonDominatedSort?_eq_ok (by decide) (by decide)]
  exact congrArg Except.ok (by decide +kernel)

end CoverSearch
