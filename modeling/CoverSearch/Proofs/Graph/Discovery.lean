import CoverSearch.Proofs.Graph.Walk
import Mathlib.Data.List.Nodup
import Mathlib.Data.List.Perm.Subperm
import Mathlib.Data.List.Shortlex

/-!
# The order of discovery

Breadth-first search finds the paths to its vertices in shortlex order: shorter paths first, and of two equally long
ones the lexicographically less. The queue keeps this order because every path in it extends one that left the queue
before, and the paths that leave it now are extended last and by ascending vertices. So a vertex that has been seen when
an edge leads to it has an earlier path than the one through that edge, and by induction along a walk no walk is earlier
than the path found to its end.

* `Earlier`, `NoLater` : the order of paths;
* `Discovers` : the invariant of the search; `Discovers.step`, `Discovers.run` : one vertex, and the whole search;
* `Discovers.suffix`, `Discovers.nodup` : the paths found form a tree and repeat no vertex;
* `Discovers.exists_noLater` : every walk ends at a vertex that is found, and on no earlier path;
* `Graph.mem_reach_iff` : what is reached.
-/

namespace CoverSearch

variable {edges : List (Nat × Nat)} {n start u v x y : Nat} {p q s w : List Nat}

/-! ## The order of paths -/

/-- Shorter, or as long and lexicographically less. -/
def Earlier (p q : List Nat) : Prop := List.Shortlex (· < ·) p q

/-- The same or earlier. -/
def NoLater (p q : List Nat) : Prop := p = q ∨ Earlier p q

theorem earlier_iff : Earlier p q ↔ p.length < q.length ∨ p.length = q.length ∧ List.Lex (· < ·) p q :=
  List.shortlex_def

theorem lex_append (h : List.Lex (· < ·) p q) (hlen : p.length = q.length) (s t : List Nat) :
    List.Lex (· < ·) (p ++ s) (q ++ t) := by
  induction h with
  | nil => simp at hlen
  | rel hlt => exact .rel hlt
  | cons _ ih => exact .cons (ih (by simpa using hlen))

namespace Earlier

theorem trans (hpq : Earlier p q) (hqs : Earlier q s) : Earlier p s := by
  rw [earlier_iff] at *
  rcases hpq with hpq | ⟨hlen, hpq⟩ <;> rcases hqs with hqs | ⟨hlen', hqs⟩
  · exact Or.inl (hpq.trans hqs)
  · exact Or.inl (hlen' ▸ hpq)
  · exact Or.inl (hlen ▸ hqs)
  · exact Or.inr ⟨hlen.trans hlen', List.lex_trans Nat.lt_trans hpq hqs⟩

theorem concat (h : Earlier p q) (x y : Nat) : Earlier (p ++ [x]) (q ++ [y]) := by
  rw [earlier_iff] at *
  simp only [List.length_append, List.length_singleton]
  rcases h with h | ⟨hlen, h⟩
  · left
    omega
  · exact Or.inr ⟨by omega, lex_append h hlen _ _⟩

theorem concat_of_lt (p : List Nat) (h : x < y) : Earlier (p ++ [x]) (p ++ [y]) :=
  List.Shortlex.append_left ((List.shortlex_singleton_iff x y).2 h) p

theorem of_length_lt (h : p.length < q.length) : Earlier p q := List.Shortlex.of_length_lt h

end Earlier

namespace NoLater

theorem trans (hpq : NoLater p q) (hqs : NoLater q s) : NoLater p s := by
  rcases hpq with rfl | hpq
  · exact hqs
  · rcases hqs with rfl | hqs
    · exact Or.inr hpq
    · exact Or.inr (hpq.trans hqs)

theorem concat (h : NoLater p q) (x : Nat) : NoLater (p ++ [x]) (q ++ [x]) := by
  rcases h with rfl | h
  · exact Or.inl rfl
  · exact Or.inr (h.concat x x)

end NoLater

/-! ## Paths of climbs -/

/-- The way down from the start of the search to the vertex. -/
def Climb.path (c : Climb) : List Nat := c.toList.reverse

@[simp] theorem Climb.path_extend (c : Climb) (x : Nat) : (c.extend x).path = c.path ++ [x] := List.reverse_cons

@[simp] theorem Climb.length_path (c : Climb) : c.path.length = c.above.length + 1 := List.length_reverse

/-! ## The invariant -/

/-- What holds while the vertices below `n` are searched from `start`: `found` has left the queue, in this order. -/
structure Discovers (edges : List (Nat × Nat)) (n start : Nat) (found : List Climb) (unseen : List Nat)
    (queue : List Climb) : Prop where
  perm : ((found ++ queue).map (·.vertex) ++ unseen).Perm (List.range n)
  unseen_lt : unseen.Pairwise (· < ·)
  start_mem : ⟨start, []⟩ ∈ found ++ queue
  origin : ∀ d ∈ found ++ queue, d = ⟨start, []⟩ ∨ ∃ c ∈ found, ∃ x, d = c.extend x
  earlier : (found ++ queue).Pairwise fun c d => Earlier c.path d.path
  /-- An edge from a vertex that has been followed leads to one with a path that is no later. -/
  edge : ∀ c ∈ found, ∀ x < n, (c.vertex, x) ∈ edges →
    ∃ d ∈ found ++ queue, d.vertex = x ∧ NoLater d.path (c.path ++ [x])

theorem fresh_append_remaining_perm (out unseen : List Nat) :
    (fresh out unseen ++ remaining out unseen).Perm unseen := List.filter_append_perm _ _

namespace Discovers

variable {found queue : List Climb} {unseen : List Nat} {c d : Climb}

theorem initial (hs : start < n) :
    Discovers edges n start [] ((List.range n).filter (· != start)) [⟨start, []⟩] where
  perm := by
    rw [← List.Nodup.erase_eq_filter List.nodup_range]
    exact (List.perm_cons_erase (List.mem_range.2 hs)).symm
  unseen_lt := List.pairwise_lt_range.filter _
  start_mem := List.mem_singleton.2 rfl
  origin := fun _ hd => Or.inl (List.mem_singleton.1 hd)
  earlier := List.pairwise_singleton _ _
  edge := fun _ hc => absurd hc List.not_mem_nil

/-- All paths so far are earlier than one that extends the path of the head. -/
theorem earlier_extend (h : Discovers edges n start found unseen (c :: queue)) (hd : d ∈ found ++ c :: queue)
    (x : Nat) : Earlier d.path (c.path ++ [x]) := by
  rcases h.origin d hd with rfl | ⟨e, he, y, rfl⟩
  · apply Earlier.of_length_lt
    simp [Climb.path, Climb.toList]
  · rw [Climb.path_extend]
    exact ((List.pairwise_append.1 h.earlier).2.2 e he c List.mem_cons_self).concat y x

/-- The head of the queue is followed. -/
theorem step (h : Discovers edges n start found unseen (c :: queue)) :
    Discovers edges n start (found ++ [c]) (remaining (Graph.outgoing edges c.vertex) unseen)
      (queue ++ (fresh (Graph.outgoing edges c.vertex) unseen).map c.extend) := by
  set out := Graph.outgoing edges c.vertex
  have hlist : found ++ [c] ++ (queue ++ (fresh out unseen).map c.extend) =
      found ++ c :: queue ++ (fresh out unseen).map c.extend := by simp
  refine ⟨?_, h.unseen_lt.filter _, ?_, ?_, ?_, ?_⟩ <;> rw [hlist]
  · have hvertex : ((fresh out unseen).map c.extend).map (·.vertex) = fresh out unseen := by
      rw [List.map_map]
      exact List.map_id _
    rw [List.map_append, hvertex, List.append_assoc]
    exact ((fresh_append_remaining_perm out unseen).append_left _).trans h.perm
  · exact List.mem_append_left _ h.start_mem
  · intro d hd
    rcases List.mem_append.1 hd with hd | hd
    · refine (h.origin d hd).imp_right ?_
      rintro ⟨e, he, hx⟩
      exact ⟨e, List.mem_append_left _ he, hx⟩
    · obtain ⟨x, -, rfl⟩ := List.mem_map.1 hd
      exact Or.inr ⟨c, by simp, x, rfl⟩
  · refine List.pairwise_append.2 ⟨h.earlier, ?_, ?_⟩
    · refine List.pairwise_map.2 ((h.unseen_lt.filter _).imp fun hlt => ?_)
      simpa using Earlier.concat_of_lt c.path hlt
    · intro d hd e he
      obtain ⟨x, -, rfl⟩ := List.mem_map.1 he
      rw [Climb.path_extend]
      exact h.earlier_extend hd x
  · intro e he x hx hedge
    rcases List.mem_append.1 he with he | he
    · obtain ⟨d, hd, hdx⟩ := h.edge e he x hx hedge
      exact ⟨d, List.mem_append_left _ hd, hdx⟩
    · obtain rfl := List.mem_singleton.1 he
      -- the end of the edge is unseen and joins the queue, or it has been seen on an earlier path
      have hmem : x ∈ (found ++ e :: queue).map (·.vertex) ++ unseen := h.perm.mem_iff.2 (List.mem_range.2 hx)
      rcases List.mem_append.1 hmem with hmem | hmem
      · obtain ⟨d, hd, rfl⟩ := List.mem_map.1 hmem
        exact ⟨d, List.mem_append_left _ hd, rfl, Or.inr (h.earlier_extend hd _)⟩
      · have hfresh : x ∈ fresh out unseen := mem_fresh.2 ⟨hmem, Graph.mem_outgoing.2 hedge⟩
        exact ⟨e.extend x, List.mem_append_right _ (List.mem_map_of_mem hfresh), rfl, Or.inl (e.path_extend x)⟩

theorem run (h : Discovers edges n start found unseen queue) :
    ∃ unseen', Discovers edges n start (found ++ breadthFirst (Graph.outgoing edges) unseen queue) unseen' [] := by
  induction unseen, queue using breadthFirst.induct (Graph.outgoing edges) generalizing found with
  | case1 unseen =>
    rw [breadthFirst, List.append_nil]
    exact ⟨unseen, h⟩
  | case2 unseen c queue out =>
    rename_i ih
    rw [breadthFirst, List.append_cons]
    exact ih h.step

/-! ## The search that has ended -/

theorem eq_of_vertex (h : Discovers edges n start found unseen []) (hc : c ∈ found) (hd : d ∈ found)
    (heq : c.vertex = d.vertex) : c = d := by
  have hnodup := h.perm.nodup_iff.2 List.nodup_range
  rw [List.append_nil] at hnodup
  exact List.inj_on_of_nodup_map hnodup.of_append_left hc hd heq

theorem vertex_lt (h : Discovers edges n start found unseen queue) (hc : c ∈ found) : c.vertex < n := by
  apply List.mem_range.1
  exact h.perm.mem_iff.1 (List.mem_append_left _ (List.mem_map_of_mem (List.mem_append_left _ hc)))

/-- What is above a vertex has been found too. -/
theorem parent_mem {above : List Nat} (h : Discovers edges n start found unseen []) (hc : ⟨v, y :: above⟩ ∈ found) :
    ⟨y, above⟩ ∈ found := by
  rcases h.origin _ (List.mem_append_left [] hc) with heq | ⟨⟨z, rest⟩, he, x, heq⟩
  · simp at heq
  · obtain ⟨-, habove⟩ := Climb.mk.inj heq
    obtain ⟨rfl, rfl⟩ := List.cons.inj habove
    exact he

theorem suffix (h : Discovers edges n start found unseen []) (hc : c ∈ found) (hu : u ∈ c.toList) :
    ∃ d ∈ found, d.vertex = u ∧ d.toList <:+ c.toList := by
  obtain ⟨v, above⟩ := c
  induction above generalizing v with
  | nil => exact ⟨_, hc, (List.mem_singleton.1 hu).symm, List.suffix_rfl⟩
  | cons y above ih =>
    rcases List.mem_cons.1 hu with rfl | hu
    · exact ⟨_, hc, rfl, List.suffix_rfl⟩
    · obtain ⟨d, hd, hdu, hsuffix⟩ := ih y (h.parent_mem hc) hu
      exact ⟨d, hd, hdu, hsuffix.trans (List.suffix_cons _ _)⟩

theorem nodup (h : Discovers edges n start found unseen []) (hc : c ∈ found) : c.toList.Nodup := by
  obtain ⟨v, above⟩ := c
  induction above generalizing v with
  | nil => exact List.pairwise_singleton _ v
  | cons y above ih =>
    have hparent := h.parent_mem hc
    refine List.nodup_cons.2 ⟨fun hmem => ?_, ih y hparent⟩
    -- a repeated vertex would have been found with a climb that is longer than itself
    obtain ⟨d, hd, hdv, hsuffix⟩ := h.suffix hparent hmem
    obtain rfl := h.eq_of_vertex hd hc hdv
    have hlen := hsuffix.length_le
    simp [Climb.toList] at hlen

theorem length_le (h : Discovers edges n start found unseen []) (hc : c ∈ found) : c.path.length ≤ n := by
  have hlt : ∀ u ∈ c.path, u ∈ List.range n := by
    intro u hu
    obtain ⟨d, hd, rfl, -⟩ := h.suffix hc (List.mem_reverse.1 hu)
    exact List.mem_range.2 (h.vertex_lt hd)
  have hle := (List.subperm_of_subset (List.nodup_reverse.2 (h.nodup hc)) hlt).length_le
  rwa [List.length_range] at hle

/-- No walk is earlier than the path found to its end. -/
theorem exists_noLater (h : Discovers edges n start found unseen []) (hinside : ∀ a b, (a, b) ∈ edges → b < n)
    (hw : IsWalk edges start v w) : ∃ c ∈ found, c.vertex = v ∧ NoLater c.path w := by
  induction w using List.reverseRecOn generalizing v with
  | nil => exact nomatch hw.head?_eq
  | append_singleton w x ih =>
    obtain ⟨rfl, ⟨rfl, rfl⟩ | ⟨y, hw, hedge⟩⟩ := hw.init
    · exact ⟨_, by simpa using h.start_mem, rfl, Or.inl rfl⟩
    · obtain ⟨c, hc, rfl, hle⟩ := ih hw
      obtain ⟨d, hd, rfl, hdle⟩ := h.edge c hc v (hinside _ _ hedge) hedge
      rw [List.append_nil] at hd
      exact ⟨d, hd, rfl, hdle.trans (hle.concat _)⟩

end Discovers

/-! ## Reach -/

theorem Graph.discovers_reach (edges : List (Nat × Nat)) (hs : start < n) :
    ∃ unseen, Discovers edges n start (reach n edges start) unseen [] := (Discovers.initial hs).run

/-- Breadth-first search finds what walks lead to. -/
theorem Graph.mem_reach_iff (hs : start < n) (hinside : ∀ a b, (a, b) ∈ edges → b < n) :
    (∃ c ∈ reach n edges start, c.vertex = v) ↔ ∃ w, IsWalk edges start v w := by
  constructor
  · rintro ⟨c, hc, rfl⟩
    exact ⟨c.path, isWalk_of_mem_reach hc⟩
  · rintro ⟨w, hw⟩
    obtain ⟨unseen, h⟩ := discovers_reach edges hs
    obtain ⟨c, hc, hv, -⟩ := h.exists_noLater hinside hw
    exact ⟨c, hc, hv⟩

end CoverSearch
