import CoverSearch.Proofs.Ranking.Dominance
import CoverSearch.Proofs.Ranking.Layers
import Mathlib.Data.List.GetD

/-!
# Sorting by Pareto dominance

On a matrix of numbers dominance is a strict order, so that no position waits for ever, and what holds of peeled
positions carries over to members: ranks are lengths of longest chains, and fronts are the members of one rank.

* `acyclic_memberBeats` : no cycles of dominance between members;
* `flatten_nonDominatedSort_perm`, `nil_notMem_nonDominatedSort` : the fronts part the members;
* `Matrix.ParetoFronts` : ranks and fronts by chains of dominators, apart from any sort;
* `nonDominatedSort?_pareto` : ranks and fronts for all members and columns inside a matrix.
-/

namespace CoverSearch

variable {m : Matrix} {members columns : List Nat}

/-- Pareto dominance between positions of a list of members. -/
def Matrix.DominatesAt (m : Matrix) (members columns : List Nat) (i j : Nat) : Prop :=
  m.Dominates columns (members.getD i 0) (members.getD j 0)

/-- The members of rank `q`, in their order. -/
def ofRank (members ranks : List Nat) (q : Nat) : List Nat :=
  ((members.zip ranks).filter fun x => x.2 == q).map (·.1)

/-! ## The relation -/

theorem Matrix.NaNFree.dominates_trans (hm : m.NaNFree) {a b c : Nat} (hab : m.Dominates columns a b)
    (hbc : m.Dominates columns b c) : m.Dominates columns a c :=
  Row.Dominates.trans (fun j _ => hm.value b j) (fun j _ => hm.value c j) hab hbc

theorem getD_toArray {α : Type} (l : List α) (i : Nat) (d : α) : l.toArray.getD i d = l.getD i d := by
  rw [Array.getD_eq_getD_getElem?, List.getElem?_toArray, List.getD_eq_getElem?_getD]

theorem memberBeats_eq_dominatesAt (m : Matrix) (members columns : List Nat) :
    (fun i j => memberBeats pareto m members.toArray columns i j = true) = m.DominatesAt members columns := by
  funext i j
  rw [memberBeats_pareto, getD_toArray, getD_toArray]
  rfl

/-- Dominance never runs in a circle. -/
theorem acyclic_memberBeats (hm : m.NaNFree) (members columns : List Nat) (i : Nat) :
    ¬ Relation.TransGen (memberBeats pareto m members.toArray columns · ·) i i := by
  rw [memberBeats_eq_dominatesAt]
  intro h
  have htrans : IsTrans Nat (m.DominatesAt members columns) := ⟨fun _ _ _ hab hbc => hm.dominates_trans hab hbc⟩
  rw [Relation.transGen_eq_self] at h
  exact Row.Dominates.irrefl _ _ h

/-! ## Members of fronts -/

/-- The fronts of positions, before the members are put in their place. -/
def positionFronts (s : Strategy) (m : Matrix) (members columns : List Nat) : List (List Nat) :=
  sortPositions (memberBeats s m members.toArray columns) members.length

theorem nonDominatedSort_eq (s : Strategy) (m : Matrix) (members columns : List Nat) :
    nonDominatedSort s m members columns =
      { ranks := (List.range members.length).map (rankIn (positionFronts s m members columns))
        fronts := (positionFronts s m members columns).map fun f => f.map fun k => members.getD k 0 } := by
  rw [nonDominatedSort, positionFronts]
  simp only [getD_toArray]

theorem map_getD_range (l : List Nat) : ((List.range l.length).map fun k => l.getD k 0) = l := by
  refine List.ext_getElem (by simp) fun k hk _ => ?_
  rw [List.getElem_map, List.getElem_range, List.getD_eq_getElem]

theorem zip_map_range (l : List Nat) (f : Nat → Nat) :
    l.zip ((List.range l.length).map f) = (List.range l.length).map fun k => (l.getD k 0, f k) := by
  refine List.ext_getElem (by simp) fun k _ hk => ?_
  rw [List.length_map, List.length_range] at hk
  rw [List.getElem_zip, List.getElem_map, List.getElem_map, List.getElem_range, List.getD_eq_getElem _ _ hk]

theorem nil_notMem_nonDominatedSort (s : Strategy) (m : Matrix) (members columns : List Nat) :
    [] ∉ (nonDominatedSort s m members columns).fronts := by
  rw [nonDominatedSort_eq, List.mem_map]
  rintro ⟨f, hf, hnil⟩
  obtain ⟨q, hq⟩ := List.mem_iff_getElem?.1 hf
  exact (getElem?_peel.1 hq).2 (List.map_eq_nil_iff.1 hnil)

theorem flatten_nonDominatedSort_perm (hm : m.NaNFree) (members columns : List Nat) :
    (nonDominatedSort pareto m members columns).fronts.flatten.Perm members := by
  have hperm := flatten_peel_perm (acyclic_memberBeats hm members columns) (List.nodup_range (n := members.length))
  rw [nonDominatedSort_eq, ← List.map_flatten]
  exact (hperm.map _).trans (List.Perm.of_eq (map_getD_range members))

/-- Members of a front at positions of one rank. -/
theorem mem_getD_fronts {s : Strategy} {q a : Nat} :
    a ∈ (nonDominatedSort s m members columns).fronts.getD q [] ↔
      ∃ k, InFront (positionFronts s m members columns) q k ∧ members.getD k 0 = a := by
  rw [nonDominatedSort_eq, List.getD_eq_getElem?_getD, List.getElem?_map]
  rcases h : (positionFronts s m members columns)[q]? with _ | f
  · simp [InFront, h]
  · simp [InFront, h]

/-! ## Ranks -/

theorem getD_ranks {s : Strategy} {k : Nat} (hk : k < members.length) :
    (nonDominatedSort s m members columns).ranks.getD k 0 = rankIn (positionFronts s m members columns) k := by
  rw [nonDominatedSort_eq, List.getD_eq_getElem _ _ (by simpa using hk), List.getElem_map, List.getElem_range]

/-- A rank is the length of the longest chain of dominators. -/
theorem isGreatest_rank (hm : m.NaNFree) (columns : List Nat) {k : Nat} (hk : k < members.length) :
    IsGreatest {n | ChainTo (m.DominatesAt members columns) (List.range members.length) n k}
      ((nonDominatedSort pareto m members columns).ranks.getD k 0) := by
  rw [getD_ranks hk, ← memberBeats_eq_dominatesAt]
  exact isGreatest_rankIn (acyclic_memberBeats hm members columns) (List.mem_range.2 hk)

theorem inFront_iff_rank (hm : m.NaNFree) (columns : List Nat) {q k : Nat} :
    InFront (positionFronts pareto m members columns) q k ↔
      k < members.length ∧ (nonDominatedSort pareto m members columns).ranks.getD k 0 = q := by
  constructor
  · intro h
    have hgreatest := inFront_peel.1 h
    have hk : k < members.length := List.mem_range.1 hgreatest.1.mem
    rw [getD_ranks hk]
    exact ⟨hk, rankIn_peel hgreatest⟩
  · rintro ⟨hk, rfl⟩
    rw [getD_ranks hk]
    exact inFront_rankIn (acyclic_memberBeats hm members columns) (List.mem_range.2 hk)

theorem rank_lt_of_dominatesAt (hm : m.NaNFree) {i k : Nat} (hi : i < members.length) (hk : k < members.length)
    (h : m.DominatesAt members columns i k) :
    (nonDominatedSort pareto m members columns).ranks.getD i 0 <
      (nonDominatedSort pareto m members columns).ranks.getD k 0 := by
  have hchain := (isGreatest_rank hm columns hi).1
  exact (isGreatest_rank hm columns hk).2 (hchain.snoc (List.mem_range.2 hk) h)

/-- A positive rank comes from a dominator of the rank below. -/
theorem exists_dominator (hm : m.NaNFree) {k q : Nat} (hk : k < members.length)
    (h : (nonDominatedSort pareto m members columns).ranks.getD k 0 = q + 1) :
    ∃ i < members.length, m.DominatesAt members columns i k ∧
      (nonDominatedSort pareto m members columns).ranks.getD i 0 = q := by
  have hgreatest := isGreatest_rank hm columns hk
  rw [h] at hgreatest
  obtain _ | @⟨_, i, _, hchain, _, hd⟩ := hgreatest.1
  have hi := List.mem_range.1 hchain.mem
  have hle : q ≤ _ := (isGreatest_rank hm columns hi).2 hchain
  have hlt := rank_lt_of_dominatesAt hm hi hk hd
  exact ⟨i, hi, hd, by omega⟩

/-- Zero without dominators, otherwise one more than the greatest rank of a dominator. -/
theorem rank_of_dominators (hm : m.NaNFree) {k : Nat} (hk : k < members.length) :
    (∀ i < members.length, ¬ m.DominatesAt members columns i k) ∧
        (nonDominatedSort pareto m members columns).ranks.getD k 0 = 0 ∨
      IsGreatest {q | ∃ i < members.length, m.DominatesAt members columns i k ∧
          q = (nonDominatedSort pareto m members columns).ranks.getD i 0 + 1}
        ((nonDominatedSort pareto m members columns).ranks.getD k 0) := by
  rcases h : (nonDominatedSort pareto m members columns).ranks.getD k 0 with _ | q
  · refine Or.inl ⟨fun i hi hd => ?_, rfl⟩
    have hlt := rank_lt_of_dominatesAt hm hi hk hd
    omega
  · obtain ⟨i, hi, hd, hrank⟩ := exists_dominator hm hk h
    refine Or.inr ⟨⟨i, hi, hd, by rw [hrank]⟩, ?_⟩
    rintro _ ⟨j, hj, hdj, rfl⟩
    have hlt := rank_lt_of_dominatesAt hm hj hk hdj
    omega

theorem rank_lt_length_fronts (hm : m.NaNFree) (columns : List Nat) {k : Nat} (hk : k < members.length) :
    (nonDominatedSort pareto m members columns).ranks.getD k 0 <
      (nonDominatedSort pareto m members columns).fronts.length := by
  obtain ⟨f, hf, -⟩ := (inFront_iff_rank hm columns).2 ⟨hk, rfl⟩
  rw [nonDominatedSort_eq, List.length_map]
  exact (List.getElem?_eq_some_iff.1 hf).1

theorem fronts_eq_ofRank (hm : m.NaNFree) (members columns : List Nat) :
    (nonDominatedSort pareto m members columns).fronts =
      (List.range (nonDominatedSort pareto m members columns).fronts.length).map
        (ofRank members (nonDominatedSort pareto m members columns).ranks) := by
  have hpeel := peel_eq_map_filter (acyclic_memberBeats hm members columns)
    (List.pairwise_lt_range (n := members.length))
  rw [nonDominatedSort_eq, List.length_map]
  conv_lhs => rw [positionFronts, sortPositions, ← counted, hpeel, List.map_map]
  refine List.map_congr_left fun q _ => ?_
  rw [ofRank, zip_map_range, List.filter_map, List.map_map]
  rfl

theorem length_ranks (s : Strategy) (m : Matrix) (members columns : List Nat) :
    (nonDominatedSort s m members columns).ranks.length = members.length := by
  rw [nonDominatedSort, List.length_map, List.length_range]

/-- Ranks and fronts by dominance alone. The rank of a member is the length of its longest chain of dominators, and
there is one front for each rank, with its members in their order. -/
structure Matrix.ParetoFronts (m : Matrix) (members columns ranks : List Nat) (fronts : List (List Nat)) : Prop where
  length_ranks : ranks.length = members.length
  isGreatest : ∀ k < members.length,
    IsGreatest {n | ChainTo (m.DominatesAt members columns) (List.range members.length) n k} (ranks.getD k 0)
  rank_lt : ∀ k < members.length, ranks.getD k 0 < fronts.length
  eq_ofRank : fronts = (List.range fronts.length).map (ofRank members ranks)
  nil_notMem : [] ∉ fronts

theorem paretoFronts_nonDominatedSort (hm : m.NaNFree) (members columns : List Nat) :
    m.ParetoFronts members columns (nonDominatedSort pareto m members columns).ranks
      (nonDominatedSort pareto m members columns).fronts where
  length_ranks := length_ranks pareto m members columns
  isGreatest _ hk := isGreatest_rank hm columns hk
  rank_lt _ hk := rank_lt_length_fronts hm columns hk
  eq_ofRank := fronts_eq_ofRank hm members columns
  nil_notMem := nil_notMem_nonDominatedSort pareto m members columns

/-! ## Main statement -/

theorem nonDominatedSort?_eq_ok (hmembers : ∀ i ∈ members, i < m.size) (hcolumns : ∀ c ∈ columns, c < m.columns) :
    nonDominatedSort? pareto m members columns = .ok (nonDominatedSort pareto m members columns) := by
  have hfits : (members.all fun i => i < m.size && pareto.fits columns (m.row i)) = true := by
    rw [List.all_eq_true]
    intro i hi
    have hsize : (m.row i).size = m.columns := by
      have hlt : i < m.rows.size := hmembers i hi
      rw [Matrix.row, Array.getD_eq_getD_getElem?, Array.getElem?_eq_getElem hlt]
      exact m.rectangular _ (Array.getElem_mem hlt)
    rw [Bool.and_eq_true, decide_eq_true_eq, Strategy.fits, hsize, List.all_eq_true]
    exact ⟨hmembers i hi, fun c hc => decide_eq_true (hcolumns c hc)⟩
  rw [nonDominatedSort?, hfits, Bool.or_true, if_pos rfl]

/-- Sorting by Pareto dominance ranks members by their longest chains of dominators, and makes one front of each rank.
The fronts part the members, no member of a front dominates another of it, and all but the first front are dominated
by the one before. -/
theorem nonDominatedSort?_pareto (m : Matrix) (members columns : List Nat) (hm : m.NaNFree)
    (hmembers : ∀ i ∈ members, i < m.size) (hcolumns : ∀ c ∈ columns, c < m.columns) :
    ∃ r, nonDominatedSort? pareto m members columns = .ok r ∧ r.ranks.length = members.length ∧
      (∀ k < members.length, IsGreatest {n | ChainTo (m.DominatesAt members columns) (List.range members.length) n k}
        (r.ranks.getD k 0)) ∧
      (∀ k < members.length,
        (∀ i < members.length, ¬ m.DominatesAt members columns i k) ∧ r.ranks.getD k 0 = 0 ∨
          IsGreatest {q | ∃ i < members.length, m.DominatesAt members columns i k ∧ q = r.ranks.getD i 0 + 1}
            (r.ranks.getD k 0)) ∧
      (∀ k < members.length, r.ranks.getD k 0 < r.fronts.length) ∧
      r.fronts = (List.range r.fronts.length).map (ofRank members r.ranks) ∧ [] ∉ r.fronts ∧
      r.fronts.flatten.Perm members ∧
      (∀ front ∈ r.fronts, ∀ a ∈ front, ∀ b ∈ front, ¬ m.Dominates columns a b) ∧
      ∀ q, ∀ b ∈ r.fronts.getD (q + 1) [], ∃ a ∈ r.fronts.getD q [], m.Dominates columns a b := by
  refine ⟨_, nonDominatedSort?_eq_ok hmembers hcolumns, length_ranks pareto m members columns,
    fun k => isGreatest_rank hm columns, fun k => rank_of_dominators hm, fun k => rank_lt_length_fronts hm columns,
    fronts_eq_ofRank hm members columns, nil_notMem_nonDominatedSort pareto m members columns,
    flatten_nonDominatedSort_perm hm members columns, ?_, ?_⟩
  · intro front hfront a ha b hb hd
    obtain ⟨q, hq, rfl⟩ := List.mem_iff_getElem.1 hfront
    rw [← List.getD_eq_getElem _ [] hq, mem_getD_fronts] at ha hb
    obtain ⟨i, hi, rfl⟩ := ha
    obtain ⟨k, hk, rfl⟩ := hb
    rw [inFront_iff_rank hm columns] at hi hk
    have hlt := rank_lt_of_dominatesAt hm hi.1 hk.1 hd
    omega
  · intro q b hb
    obtain ⟨k, hk, rfl⟩ := mem_getD_fronts.1 hb
    rw [inFront_iff_rank hm columns] at hk
    obtain ⟨i, hi, hd, hrank⟩ := exists_dominator hm hk.1 hk.2
    exact ⟨_, mem_getD_fronts.2 ⟨i, (inFront_iff_rank hm columns).2 ⟨hi, hrank⟩, rfl⟩, hd⟩

/-- Three rows, one with an infinity; the second dominates the third. -/
def unevenRows : Matrix :=
  ⟨#[#[0, Float.ofBits 0x7FF0000000000000], #[1, 1], #[2, 1]], 2, by simp⟩

theorem unevenRows_nanFree : unevenRows.NaNFree := by
  unfold Matrix.NaNFree unevenRows
  decide +kernel

/-- Two of four members are the same row, and its front holds it twice. -/
theorem nonDominatedSort?_pareto_unevenRows :
    unevenRows.NaNFree ∧ (∀ i ∈ [2, 1, 0, 1], i < unevenRows.size) ∧ (∀ c ∈ [1, 0, 1], c < unevenRows.columns) ∧
      ∃ r, nonDominatedSort? pareto unevenRows [2, 1, 0, 1] [1, 0, 1] = .ok r ∧ r.fronts.flatten.Perm [2, 1, 0, 1] := by
  refine ⟨unevenRows_nanFree, by decide, by decide, ?_⟩
  obtain ⟨r, hr, -, -, -, -, -, -, hperm, -⟩ :=
    nonDominatedSort?_pareto unevenRows [2, 1, 0, 1] [1, 0, 1] unevenRows_nanFree (by decide) (by decide)
  exact ⟨r, hr, hperm⟩

end CoverSearch
