import CoverSearch.Proofs.Ranking.Layers

/-!
# Positions behind a cycle

Peeling is not only for strict orders: a rule of dominance may run in a circle, and then some positions wait for ever.
A position ends chains of every length exactly when one of its chains comes from a cycle, so these are the positions
that no front holds.

* `Within` : a relation between some positions only;
* `BehindCycle` : a cycle leads to a position, which is on it or behind it;
* `chainTo_forall_iff` : the positions that chains of every length lead to;
* `mem_flatten_peel_iff` : the positions that fronts hold; `nodup_flatten_peel` : and hold once;
* `findIdx?_of_notMem`, `rankIn_of_notMem` : the others have rank zero.
-/

namespace CoverSearch

variable {r : Nat → Nat → Prop} {dominates : Nat → Nat → Bool} {ps : List Nat} {k n : Nat}

/-- A relation between the positions of a list. -/
def Within (ps : List Nat) (r : Nat → Nat → Prop) (i j : Nat) : Prop := i ∈ ps ∧ j ∈ ps ∧ r i j

/-- A cycle of the relation leads to a position. -/
def BehindCycle (r : Nat → Nat → Prop) (k : Nat) : Prop := ∃ i, Relation.TransGen r i i ∧ Relation.ReflTransGen r i k

/-- Before a position behind a cycle there is another one. -/
theorem BehindCycle.exists_before (h : BehindCycle r k) : ∃ j, BehindCycle r j ∧ r j k := by
  obtain ⟨i, hcycle, hreach⟩ := h
  rcases hreach.cases_tail with rfl | ⟨j, hij, hjk⟩
  · obtain ⟨j, hij, hjk⟩ := Relation.TransGen.tail'_iff.1 hcycle
    exact ⟨j, ⟨k, hcycle, hij⟩, hjk⟩
  · exact ⟨j, ⟨i, hcycle, hij⟩, hjk⟩

/-! ## Chains without end -/

theorem ChainTo.within (h : ChainTo r ps n k) : ChainTo (Within ps r) ps n k := by
  induction h with
  | single hk => exact .single hk
  | snoc h hk hd ih => exact .snoc ih hk ⟨h.mem, hk, hd⟩

theorem BehindCycle.chainTo (h : BehindCycle (Within ps r) k) (n : Nat) : ChainTo r ps n k := by
  induction n generalizing k with
  | zero =>
    obtain ⟨_, _, _, hk, _⟩ := h.exists_before
    exact .single hk
  | succ n ih =>
    obtain ⟨j, hj, _, hk, hd⟩ := h.exists_before
    exact .snoc (ih hj) hk hd

/-- Chains of every length lead to the positions behind a cycle. -/
theorem chainTo_forall_iff : (∀ n, ChainTo r ps n k) ↔ BehindCycle (Within ps r) k :=
  ⟨fun h => (h ps.length).within.exists_cycle (Nat.le_refl _), BehindCycle.chainTo⟩

/-! ## Fronts -/

theorem mem_flatten_iff_inFront {fronts : List (List Nat)} : k ∈ fronts.flatten ↔ ∃ q, InFront fronts q k := by
  rw [List.mem_flatten]
  constructor
  · rintro ⟨f, hf, hk⟩
    obtain ⟨q, hq⟩ := List.mem_iff_getElem?.1 hf
    exact ⟨q, f, hq, hk⟩
  · rintro ⟨q, f, hq, hk⟩
    exact ⟨f, List.mem_of_getElem? hq, hk⟩

/-- Fronts hold the positions that no cycle leads to. -/
theorem mem_flatten_peel_iff : k ∈ (peel dominates (counted dominates ps)).flatten ↔
    k ∈ ps ∧ ¬ BehindCycle (Within ps (dominates · ·)) k := by
  rw [mem_flatten_iff_inFront, ← chainTo_forall_iff, not_forall]
  simp only [inFront_peel]
  constructor
  · rintro ⟨q, hq⟩
    exact ⟨hq.1.mem, q + 1, (ChainTo.isGreatest_iff.1 hq).2⟩
  · rintro ⟨hk, n, hn⟩
    exact ChainTo.exists_isGreatest hk hn

theorem nodup_flatten_peel (h : ps.Nodup) : (peel dominates (counted dominates ps)).flatten.Nodup := by
  obtain ⟨l, hperm, hsub⟩ := @flatten_peel_subperm dominates ps
  exact hperm.nodup_iff.1 (h.sublist hsub)

theorem findIdx?_of_notMem {fronts : List (List Nat)} (h : k ∉ fronts.flatten) :
    fronts.findIdx? (fun f => f.contains k) = none := by
  rw [List.findIdx?_eq_none_iff]
  intro f hf
  rw [← Bool.not_eq_true, List.contains_iff_mem]
  exact fun hk => h (List.mem_flatten.2 ⟨f, hf, hk⟩)

theorem rankIn_of_notMem {fronts : List (List Nat)} (h : k ∉ fronts.flatten) : rankIn fronts k = 0 := by
  rw [rankIn, findIdx?_of_notMem h]
  rfl

end CoverSearch
