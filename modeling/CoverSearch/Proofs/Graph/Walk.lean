import CoverSearch.Graph
import Mathlib.Data.List.Chain

/-!
# Walks

* `IsWalk` : the vertices of a walk from `u` to `v`, both included;
* `IsWalk.tail`, `IsWalk.init` : a walk without its first and without its last edge;
* `IsWalk.leaves` : a walk that starts in a set and ends outside meets what lies behind the edges out of the set;
* `isWalk_of_mem_reach` : the climbs that breadth-first search finds are walks from its start, read backwards.
-/

namespace CoverSearch

variable {edges : List (Nat × Nat)} {u v x : Nat} {w : List Nat}

/-- The vertices of a walk along edges from `u` to `v`. -/
structure IsWalk (edges : List (Nat × Nat)) (u v : Nat) (w : List Nat) : Prop where
  head?_eq : w.head? = some u
  getLast?_eq : w.getLast? = some v
  isChain : w.IsChain fun a b => (a, b) ∈ edges

namespace IsWalk

theorem single (edges : List (Nat × Nat)) (u : Nat) : IsWalk edges u u [u] := ⟨rfl, rfl, List.isChain_singleton u⟩

theorem concat (h : IsWalk edges u v w) (he : (v, x) ∈ edges) : IsWalk edges u x (w ++ [x]) where
  head?_eq := by rw [List.head?_append, h.head?_eq, Option.some_or]
  getLast?_eq := List.getLast?_concat
  isChain := by
    refine List.isChain_append.2 ⟨h.isChain, List.isChain_singleton x, fun a ha b hb => ?_⟩
    rw [h.getLast?_eq] at ha
    obtain rfl := Option.mem_some.1 ha
    obtain rfl := Option.mem_some.1 hb
    exact he

/-- The rest of a walk behind its first edge. -/
theorem tail {y : Nat} (h : IsWalk edges u v (y :: x :: w)) : y = u ∧ (u, x) ∈ edges ∧ IsWalk edges x v (x :: w) := by
  obtain ⟨hhead, hlast, hchain⟩ := h
  obtain rfl := Option.some.inj hhead
  obtain ⟨hedge, hchain⟩ := List.isChain_cons_cons.1 hchain
  exact ⟨rfl, hedge, rfl, by rwa [List.getLast?_cons_cons] at hlast, hchain⟩

/-- The rest of a walk before its last edge. -/
theorem init (h : IsWalk edges u v (w ++ [x])) :
    v = x ∧ (w = [] ∧ u = v ∨ ∃ y, IsWalk edges u y w ∧ (y, v) ∈ edges) := by
  obtain ⟨hhead, hlast, hchain⟩ := h
  obtain rfl : x = v := by simpa using hlast
  refine ⟨rfl, ?_⟩
  rcases List.eq_nil_or_concat' w with rfl | ⟨w, y, rfl⟩
  · exact Or.inl ⟨rfl, (Option.some.inj hhead).symm⟩
  · obtain ⟨hchain, -, hedge⟩ := List.isChain_append.1 hchain
    refine Or.inr ⟨y, ⟨?_, List.getLast?_concat, hchain⟩, hedge y (by simp) x rfl⟩
    rwa [List.head?_append_of_ne_nil _ (by simp)] at hhead

theorem mono {edges' : List (Nat × Nat)} (h : IsWalk edges u v w) (hsub : ∀ e ∈ edges, e ∈ edges') :
    IsWalk edges' u v w := ⟨h.head?_eq, h.getLast?_eq, h.isChain.imp fun _ _ he => hsub _ he⟩

/-- A walk that starts in `P` ends in `P`, or it meets `Q` when each edge out of `P` leads to `Q`. -/
theorem leaves {P Q : Nat → Prop} (h : IsWalk edges u v w) (hu : P u)
    (hedge : ∀ a b, P a → (a, b) ∈ edges → P b ∨ Q b) : P v ∨ ∃ a ∈ w, Q a := by
  induction w generalizing u with
  | nil => exact nomatch h.head?_eq
  | cons y w ih =>
    rcases w with _ | ⟨x, w⟩
    · obtain rfl : y = u := Option.some.inj h.head?_eq
      obtain rfl : y = v := Option.some.inj h.getLast?_eq
      exact Or.inl hu
    · obtain ⟨rfl, he, hrest⟩ := h.tail
      rcases hedge y x hu he with hx | hx
      · refine (ih hrest hx).imp_right ?_
        rintro ⟨a, ha, hqa⟩
        exact ⟨a, List.mem_cons_of_mem y ha, hqa⟩
      · exact Or.inr ⟨x, List.mem_cons_of_mem y List.mem_cons_self, hx⟩

end IsWalk

/-! ## Breadth-first search -/

theorem mem_fresh {out unseen : List Nat} : x ∈ fresh out unseen ↔ x ∈ unseen ∧ x ∈ out := by
  rw [fresh, List.mem_filter, List.contains_iff_mem]

theorem mem_remaining {out unseen : List Nat} : x ∈ remaining out unseen ↔ x ∈ unseen ∧ x ∉ out := by
  rw [remaining, List.mem_filter, Bool.not_eq_true', ← Bool.not_eq_true, List.contains_iff_mem]

/-- What holds of the queue and stays true along successors holds of every climb found. -/
theorem forall_mem_breadthFirst {next : Nat → List Nat} {P : Climb → Prop}
    (hnext : ∀ c, P c → ∀ w ∈ next c.vertex, P (c.extend w)) (unseen : List Nat) (queue : List Climb)
    (hqueue : ∀ c ∈ queue, P c) : ∀ c ∈ breadthFirst next unseen queue, P c := by
  -- the induction follows the search: the head of the queue is found, its unseen successors join the queue
  induction unseen, queue using breadthFirst.induct next with
  | case1 unseen =>
    rw [breadthFirst]
    exact hqueue
  | case2 unseen c queue out ih =>
    rw [breadthFirst]
    have hc : P c := hqueue c List.mem_cons_self
    refine List.forall_mem_cons.2 ⟨hc, ih fun d hd => ?_⟩
    rcases List.mem_append.1 hd with hd | hd
    · exact hqueue d (List.mem_cons_of_mem c hd)
    · obtain ⟨w, hw, rfl⟩ := List.mem_map.1 hd
      have hout : w ∈ out := by simpa using (List.mem_filter.1 hw).2
      exact hnext c hc w hout

namespace Graph

theorem mem_outgoing : x ∈ outgoing edges v ↔ (v, x) ∈ edges := by
  rw [outgoing, List.mem_map]
  constructor
  · rintro ⟨⟨a, b⟩, h, rfl⟩
    obtain ⟨hmem, hstart⟩ := List.mem_filter.1 h
    rwa [← (beq_iff_eq.1 hstart : a = v)]
  · intro h
    exact ⟨(v, x), List.mem_filter.2 ⟨h, beq_self_eq_true v⟩, rfl⟩

/-- A climb that is found is a walk, backwards. -/
theorem isWalk_of_mem_reach {n start : Nat} {c : Climb} (h : c ∈ reach n edges start) :
    IsWalk edges start c.vertex c.toList.reverse := by
  refine forall_mem_breadthFirst (P := fun c => IsWalk edges start c.vertex c.toList.reverse) (fun c hc w hw => ?_) _ _
    (fun c hc => ?_) c h
  · show IsWalk edges start w (w :: c.toList).reverse
    rw [List.reverse_cons]
    exact hc.concat (mem_outgoing.1 hw)
  · rw [List.mem_singleton.1 hc]
    exact .single edges start

end Graph

end CoverSearch
