import CoverSearch.Ranking.Fronts
import Mathlib.Data.List.Nodup
import Mathlib.Data.List.Perm.Subperm
import Mathlib.Data.List.Sort
import Mathlib.Logic.Function.Iterate
import Mathlib.Logic.Relation
import Mathlib.Order.Bounds.Basic

/-!
# Peeling and longest chains

The counters of `peel` hold, for every waiting position, the number of waiting positions that dominate it. So a round
parts the waiting positions into those `ahead` of all others and those `behind` some other, and after `q` rounds the
positions that wait are those at the end of a chain of `q` dominations. This holds for any relation, cyclic ones
included:

* `Waiting.front_counted`, `Waiting.rest_counted` : what the counters stand for, and that a round keeps it;
* `mem_iterate_behind` : who waits after `q` rounds;
* `getElem?_peel` : the front of every round;
* `inFront_peel`, `rankIn_peel` : a position is in front `q`, and has rank `q`, when its longest chain has `q`
  dominations;
* `flatten_peel_subperm` : no position is in two fronts.
-/

namespace CoverSearch

variable (dominates : Nat → Nat → Bool)

/-! ## One round -/

/-- The positions that none of them dominates. -/
def ahead (ps : List Nat) : List Nat := ps.filter fun j => !ps.any fun i => dominates i j

/-- The positions that one of them dominates. -/
def behind (ps : List Nat) : List Nat := ps.filter fun j => ps.any fun i => dominates i j

/-- Positions with the number of those among them that dominate each. -/
def counted (ps : List Nat) : List Waiting := ps.map fun j => ⟨j, ps.countP fun i => dominates i j⟩

theorem mem_behind {ps : List Nat} {k : Nat} :
    k ∈ behind dominates ps ↔ k ∈ ps ∧ ∃ i ∈ ps, dominates i k = true := by
  rw [behind, List.mem_filter, List.any_eq_true]

theorem mem_ahead {ps : List Nat} {k : Nat} : k ∈ ahead dominates ps ↔ k ∈ ps ∧ k ∉ behind dominates ps := by
  rw [mem_behind, ahead, List.mem_filter, Bool.not_eq_true', List.any_eq_false]
  grind

theorem behind_sublist (ps : List Nat) : (behind dominates ps).Sublist ps := List.filter_sublist

theorem ahead_sublist (ps : List Nat) : (ahead dominates ps).Sublist ps := List.filter_sublist

theorem ahead_append_behind_perm (ps : List Nat) : (ahead dominates ps ++ behind dominates ps).Perm ps := by
  refine List.perm_append_comm.trans ?_
  exact List.filter_append_perm _ ps

/-- Without a position ahead of all others nothing changes. -/
theorem behind_eq_self {ps : List Nat} (h : ahead dominates ps = []) : behind dominates ps = ps := by
  rw [behind, List.filter_eq_self]
  intro j hj
  have hj' : j ∉ ahead dominates ps := by
    rw [h]
    exact List.not_mem_nil
  rw [mem_ahead, not_and_not_right] at hj'
  exact (List.mem_filter.1 (hj' hj)).2

theorem countP_eq_zero_iff_any (ps : List Nat) (j : Nat) :
    (ps.countP fun i => dominates i j) = 0 ↔ (ps.any fun i => dominates i j) = false := by
  rw [List.countP_eq_zero, List.any_eq_false]

namespace Waiting

theorem front_counted (ps : List Nat) : front (counted dominates ps) = ahead dominates ps := by
  rw [front, counted, List.filter_map, List.map_map]
  show (ps.filter _).map id = _
  rw [List.map_id, ahead]
  refine List.filter_congr fun j _ => ?_
  show ((ps.countP fun i => dominates i j) == 0) = _
  rw [Bool.eq_iff_iff, beq_iff_eq, countP_eq_zero_iff_any, Bool.not_eq_true']

theorem filter_counted (ps : List Nat) : (counted dominates ps).filter (·.above != 0) =
    (behind dominates ps).map fun j => ⟨j, ps.countP fun i => dominates i j⟩ := by
  rw [counted, List.filter_map, behind]
  congr 1
  refine List.filter_congr fun j _ => ?_
  show ((ps.countP fun i => dominates i j) != 0) = _
  rw [Bool.eq_iff_iff, bne_iff_ne, ne_eq, countP_eq_zero_iff_any, Bool.not_eq_false]

/-- The counters go down by the dominators that leave, and count those that stay. -/
theorem rest_counted (ps : List Nat) :
    rest dominates (counted dominates ps) = counted dominates (behind dominates ps) := by
  rw [rest, front_counted, filter_counted, List.map_map, counted]
  refine List.map_congr_left fun j _ => ?_
  have hsplit := (ahead_append_behind_perm dominates ps).countP_eq fun i => dominates i j
  rw [List.countP_append] at hsplit
  show Waiting.mk j ((ps.countP fun i => dominates i j) - (ahead dominates ps).countP fun i => dominates i j) = _
  rw [← hsplit, Nat.add_sub_cancel_left]

end Waiting

theorem peel_counted (ps : List Nat) :
    peel dominates (counted dominates ps) =
      if ahead dominates ps = [] then []
      else ahead dominates ps :: peel dominates (counted dominates (behind dominates ps)) := by
  rw [peel, Waiting.front_counted, Waiting.rest_counted]
  split <;> rfl

/-! ## Chains -/

/-- `ChainTo r ps n k` : a chain of `n` steps of `r` among the positions `ps` ends at `k`. -/
inductive ChainTo (r : Nat → Nat → Prop) (ps : List Nat) : Nat → Nat → Prop
  | single {k} (hk : k ∈ ps) : ChainTo r ps 0 k
  | snoc {n i k} (h : ChainTo r ps n i) (hk : k ∈ ps) (hd : r i k) : ChainTo r ps (n + 1) k

namespace ChainTo
variable {r : Nat → Nat → Prop} {ps : List Nat} {n k : Nat}

theorem mem (h : ChainTo r ps n k) : k ∈ ps := by
  cases h <;> assumption

/-- The first step of a chain can be left out. -/
theorem shorten (h : ChainTo r ps (n + 1) k) : ChainTo r ps n k := by
  induction n generalizing k with
  | zero => exact .single h.mem
  | succ n ih =>
    obtain _ | ⟨h', hk, hd⟩ := h
    exact .snoc (ih h') hk hd

theorem of_le {l : Nat} (h : ChainTo r ps n k) (hl : l ≤ n) : ChainTo r ps l k := by
  induction n, hl using Nat.le_induction with
  | base => exact h
  | succ n _ ih => exact ih h.shorten

/-- A longest chain is one that cannot be made longer. -/
theorem isGreatest_iff {q : Nat} :
    IsGreatest {n | ChainTo r ps n k} q ↔ ChainTo r ps q k ∧ ¬ ChainTo r ps (q + 1) k := by
  refine and_congr_right fun _ => ⟨fun h h' => absurd (h h') (by omega), fun h n hn => ?_⟩
  by_contra hlt
  exact h (of_le hn (by omega))

theorem exists_isGreatest (hk : k ∈ ps) (hn : ¬ ChainTo r ps n k) : ∃ q, IsGreatest {n | ChainTo r ps n k} q := by
  induction n with
  | zero => exact absurd (.single hk) hn
  | succ n ih =>
    by_cases h : ChainTo r ps n k
    · exact ⟨n, isGreatest_iff.2 ⟨h, hn⟩⟩
    · exact ih h

/-- A chain visits as many positions as it is long, or it meets a cycle. -/
theorem exists_visited_or_cycle (h : ChainTo r ps n k) :
    (∃ l : List Nat, l.length = n + 1 ∧ l.Nodup ∧ l ⊆ ps ∧ ∀ i ∈ l, Relation.ReflTransGen r i k) ∨
      ∃ i, Relation.TransGen r i i ∧ Relation.ReflTransGen r i k := by
  induction h with
  | single hk =>
    exact Or.inl ⟨[_], rfl, List.nodup_singleton _, by simpa using hk, by simp [Relation.ReflTransGen.refl]⟩
  | @snoc n i k h hk hd ih =>
    rcases ih with ⟨l, hlen, hnodup, hsub, hreach⟩ | ⟨j, hcycle, hreach⟩
    · by_cases hkl : k ∈ l
      · exact Or.inr ⟨k, .tail' (hreach k hkl) hd, .refl⟩
      · refine Or.inl ⟨k :: l, by rw [List.length_cons, hlen], List.nodup_cons.2 ⟨hkl, hnodup⟩,
          List.cons_subset.2 ⟨hk, hsub⟩, fun j hj => ?_⟩
        rcases List.mem_cons.1 hj with rfl | hj
        · exact .refl
        · exact (hreach j hj).tail hd
    · exact Or.inr ⟨j, hcycle, hreach.tail hd⟩

/-- A chain with at least as many steps as there are positions comes from a cycle. -/
theorem exists_cycle (h : ChainTo r ps n k) (hn : ps.length ≤ n) :
    ∃ i, Relation.TransGen r i i ∧ Relation.ReflTransGen r i k := by
  rcases h.exists_visited_or_cycle with ⟨l, hlen, hnodup, hsub, _⟩ | hcycle
  · have := (List.subperm_of_subset hnodup hsub).length_le
    omega
  · exact hcycle

end ChainTo

variable {dominates} {ps : List Nat} {n k : Nat}

/-- What stands behind others ends a chain that is longer by one of these. -/
theorem chainTo_behind :
    ChainTo (dominates · ·) (behind dominates ps) n k ↔ ChainTo (dominates · ·) ps (n + 1) k := by
  constructor
  · intro h
    induction h with
    | single hk =>
      obtain ⟨hk, i, hi, hd⟩ := (mem_behind dominates).1 hk
      exact .snoc (.single hi) hk hd
    | snoc _ hk hd ih => exact .snoc ih ((mem_behind dominates).1 hk).1 hd
  · intro h
    induction n generalizing k with
    | zero =>
      obtain _ | ⟨hi, hk, hd⟩ := h
      exact .single ((mem_behind dominates).2 ⟨hk, _, hi.mem, hd⟩)
    | succ n ih =>
      obtain _ | ⟨hi, hk, hd⟩ := h
      exact .snoc (ih hi) ((mem_behind dominates).2 ⟨hk, _, hi.mem, hd⟩) hd

/-- After `q` rounds the positions wait that end a chain of `q` dominations. -/
theorem mem_iterate_behind {q : Nat} : k ∈ (behind dominates)^[q] ps ↔ ChainTo (dominates · ·) ps q k := by
  induction q generalizing ps with
  | zero => exact ⟨.single, ChainTo.mem⟩
  | succ q ih => rw [Function.iterate_succ_apply, ih, chainTo_behind]

theorem mem_ahead_iterate {q : Nat} :
    k ∈ ahead dominates ((behind dominates)^[q] ps) ↔ IsGreatest {n | ChainTo (dominates · ·) ps n k} q := by
  rw [mem_ahead, ← Function.iterate_succ_apply' (behind dominates), mem_iterate_behind, mem_iterate_behind,
    ChainTo.isGreatest_iff]

/-! ## Fronts -/

theorem iterate_behind_eq_self {q : Nat} (h : ahead dominates ps = []) : (behind dominates)^[q] ps = ps :=
  Function.iterate_fixed (behind_eq_self dominates h) q

/-- The front of round `q`, as long as no round before was without one. -/
theorem getElem?_peel {q : Nat} {f : List Nat} :
    (peel dominates (counted dominates ps))[q]? = some f ↔
      f = ahead dominates ((behind dominates)^[q] ps) ∧ f ≠ [] := by
  induction q generalizing ps with
  | zero =>
    rw [peel_counted, Function.iterate_zero_apply]
    split <;> rename_i h
    · simp [h]
    · simp only [List.getElem?_cons_zero, Option.some.injEq, @eq_comm _ _ f]
      exact ⟨fun hf => ⟨hf, hf ▸ h⟩, And.left⟩
  | succ q ih =>
    rw [peel_counted]
    split <;> rename_i h
    · rw [iterate_behind_eq_self h, h]
      simp
    · rw [List.getElem?_cons_succ, ih, Function.iterate_succ_apply]

/-- The front number `q` holds position `k`. -/
def InFront (fronts : List (List Nat)) (q k : Nat) : Prop := ∃ f, fronts[q]? = some f ∧ k ∈ f

theorem inFront_peel {q : Nat} : InFront (peel dominates (counted dominates ps)) q k ↔
    IsGreatest {n | ChainTo (dominates · ·) ps n k} q := by
  rw [← mem_ahead_iterate]
  constructor
  · rintro ⟨f, hf, hk⟩
    exact (getElem?_peel.1 hf).1 ▸ hk
  · intro hk
    exact ⟨_, getElem?_peel.2 ⟨rfl, List.ne_nil_of_mem hk⟩, hk⟩

theorem rankIn_peel {q : Nat} (h : IsGreatest {n | ChainTo (dominates · ·) ps n k} q) :
    rankIn (peel dominates (counted dominates ps)) k = q := by
  obtain ⟨f, hf, hk⟩ := inFront_peel.2 h
  obtain ⟨hq, hfq⟩ := List.getElem?_eq_some_iff.1 hf
  have hfind : (peel dominates (counted dominates ps)).findIdx? (fun f => f.contains k) = some q := by
    rw [List.findIdx?_eq_some_iff_getElem]
    refine ⟨hq, by simpa [hfq] using hk, fun p hp hkp => ?_⟩
    have hfront : InFront (peel dominates (counted dominates ps)) p k :=
      ⟨_, List.getElem?_eq_getElem (hp.trans hq), by simpa using hkp⟩
    exact absurd ((inFront_peel.1 hfront).unique h) (Nat.ne_of_lt hp)
  rw [rankIn, hfind]
  rfl

theorem iterate_behind_sublist (q : Nat) : ((behind dominates)^[q] ps).Sublist ps := by
  induction q with
  | zero => exact List.Sublist.refl _
  | succ q ih =>
    rw [Function.iterate_succ_apply']
    exact (behind_sublist dominates _).trans ih

theorem front_sublist {q : Nat} {f : List Nat} (h : (peel dominates (counted dominates ps))[q]? = some f) :
    f.Sublist ps := by
  rw [(getElem?_peel.1 h).1]
  exact (ahead_sublist dominates _).trans (iterate_behind_sublist q)

/-- No position is placed more often than it waits. -/
theorem flatten_peel_subperm (ps : List Nat) : (peel dominates (counted dominates ps)).flatten.Subperm ps := by
  induction hn : ps.length using Nat.strong_induction_on generalizing ps with
  | _ n ih =>
    rw [peel_counted]
    split <;> rename_i h
    · exact List.nil_subperm
    · rw [List.flatten_cons]
      have hlen := (ahead_append_behind_perm dominates ps).length_eq
      have hpos := List.length_pos_iff.2 h
      rw [List.length_append] at hlen
      have hrest := ih (behind dominates ps).length (by omega) (behind dominates ps) rfl
      exact ((List.subperm_append_left _).2 hrest).trans (ahead_append_behind_perm dominates ps).subperm

/-! ## Without cycles -/

section Acyclic
variable (hacyclic : ∀ i, ¬ Relation.TransGen (dominates · ·) i i)
include hacyclic

theorem isGreatest_rankIn (hk : k ∈ ps) :
    IsGreatest {n | ChainTo (dominates · ·) ps n k} (rankIn (peel dominates (counted dominates ps)) k) := by
  have hbound : ¬ ChainTo (dominates · ·) ps ps.length k := by
    intro h
    obtain ⟨i, hcycle, _⟩ := h.exists_cycle (Nat.le_refl _)
    exact hacyclic i hcycle
  obtain ⟨q, hq⟩ := ChainTo.exists_isGreatest hk hbound
  rw [rankIn_peel hq]
  exact hq

theorem inFront_rankIn (hk : k ∈ ps) :
    InFront (peel dominates (counted dominates ps)) (rankIn (peel dominates (counted dominates ps)) k) k :=
  inFront_peel.2 (isGreatest_rankIn hacyclic hk)

theorem flatten_peel_perm (hnodup : ps.Nodup) : (peel dominates (counted dominates ps)).flatten.Perm ps := by
  refine (flatten_peel_subperm ps).perm_of_length_le ((List.subperm_of_subset hnodup fun k hk => ?_).length_le)
  obtain ⟨f, hf, hkf⟩ := inFront_rankIn hacyclic hk
  exact List.mem_flatten.2 ⟨f, List.mem_of_getElem? hf, hkf⟩

/-- A front holds the positions of its rank in their order. -/
theorem peel_eq_map_filter (hsorted : ps.Pairwise (· < ·)) : peel dominates (counted dominates ps) =
    (List.range (peel dominates (counted dominates ps)).length).map fun q =>
      ps.filter fun k => rankIn (peel dominates (counted dominates ps)) k == q := by
  refine List.ext_getElem (by simp) fun q hq _ => ?_
  rw [List.getElem_map, List.getElem_range]
  have hget := List.getElem?_eq_getElem hq
  refine List.Pairwise.eq_of_mem_iff (hsorted.sublist (front_sublist hget)) (hsorted.sublist List.filter_sublist)
    fun k => ?_
  rw [List.mem_filter, beq_iff_eq]
  constructor
  · intro hk
    exact ⟨(front_sublist hget).subset hk, rankIn_peel (inFront_peel.1 ⟨_, hget, hk⟩)⟩
  · rintro ⟨hk, rfl⟩
    obtain ⟨f, hf, hkf⟩ := inFront_rankIn hacyclic hk
    rw [hget, Option.some.injEq] at hf
    exact hf ▸ hkf

end Acyclic

end CoverSearch
