import CoverSearch.Proofs.Graph.Paths

/-!
# All dependents

A search from a stack keeps two things apart: what has left the list of unseen vertices has been on the stack, and what
was on the stack has no successor that stays unseen. So what it sees is what one or more edges lead to from its start.
The start counts as unseen at first and comes back through a cycle, which does no harm: it is followed once more, finds
nothing new, and is left out at the end.

* `mem_of_mem_depthFirst`, `not_mem_depthFirst_of_next` : what stays unseen, and what does not;
* `forall_seen_depthFirst` : what holds along successors holds of all that is seen;
* `Graph.mem_depthFirst_iff`, `Graph.exists_allDependents` : the search in a graph;
* `allDependents_eq` : the dependents of every vertex of a record.
-/

namespace CoverSearch

variable {r : Record} {g : Graph} {next : Nat → List Nat} {unseen stack : List Nat} {u v w x : Nat}

/-! ## The search -/

/-- Vertices only leave the unseen ones. -/
theorem mem_of_mem_depthFirst (next : Nat → List Nat) (unseen stack : List Nat) (h : x ∈ depthFirst next unseen stack) :
    x ∈ unseen := by
  induction unseen, stack using depthFirst.induct next with
  | case1 unseen =>
    rwa [depthFirst] at h
  | case2 unseen v stack out ih =>
    rw [depthFirst] at h
    exact (mem_remaining.1 (ih h)).1

/-- Successors of the stack, and of what the search sees, do not stay unseen. -/
theorem not_mem_depthFirst_of_next (hx : x ∈ stack ∨ x ∈ unseen ∧ x ∉ depthFirst next unseen stack) (hw : w ∈ next x) :
    w ∉ depthFirst next unseen stack := by
  induction unseen, stack using depthFirst.induct next with
  | case1 unseen =>
    rw [depthFirst] at hx
    rcases hx with hx | ⟨hmem, hnot⟩
    · exact absurd hx List.not_mem_nil
    · exact absurd hmem hnot
  | case2 unseen v stack out ih =>
    rw [depthFirst] at hx ⊢
    by_cases hv : x = v
    · intro hmem
      exact (mem_remaining.1 (mem_of_mem_depthFirst next _ _ hmem)).2 (hv ▸ hw)
    refine ih ?_
    rcases hx with hx | ⟨hmem, hnot⟩
    · exact Or.inl (List.mem_append_right _ ((List.mem_cons.1 hx).resolve_left hv))
    · -- a vertex that is seen is seen now, and goes onto the stack, or later
      by_cases hout : x ∈ out
      · exact Or.inl (List.mem_append_left _ (List.mem_reverse.2 (mem_fresh.2 ⟨hmem, hout⟩)))
      · exact Or.inr ⟨mem_remaining.2 ⟨hmem, hout⟩, hnot⟩

/-- What holds of the successors of the stack, and along successors, holds of all that the search sees. -/
theorem forall_seen_depthFirst {P : Nat → Prop} (hnext : ∀ v, P v → ∀ w ∈ next v, P w)
    (hstack : ∀ v ∈ stack, ∀ w ∈ next v, P w) (hx : x ∈ unseen) (hseen : x ∉ depthFirst next unseen stack) : P x := by
  induction unseen, stack using depthFirst.induct next with
  | case1 unseen =>
    rw [depthFirst] at hseen
    exact absurd hx hseen
  | case2 unseen v stack out ih =>
    rw [depthFirst] at hseen
    have hout : ∀ w ∈ out, P w := hstack v List.mem_cons_self
    by_cases hmem : x ∈ out
    · exact hout x hmem
    refine ih (fun y hy => ?_) (mem_remaining.2 ⟨hx, hmem⟩) hseen
    rcases List.mem_append.1 hy with hy | hy
    · exact hnext y (hout y (mem_fresh.1 (List.mem_reverse.1 hy)).2)
    · exact hstack y (List.mem_cons_of_mem v hy)

/-! ## Graphs -/

namespace Graph

/-- A search that has not seen its start sees what one or more edges lead to. -/
theorem mem_depthFirst_iff (hg : g.Sound) (hu : u < g.size) (hne : u ≠ v) :
    u ∉ depthFirst g.children (List.range g.size) [v] ↔ ∃ w, IsWalk g.edges v u w ∧ 1 < w.length := by
  constructor
  · refine forall_seen_depthFirst (P := fun x => ∃ w, IsWalk g.edges v x w ∧ 1 < w.length) (fun x hx y hy => ?_)
      (fun x hx y hy => ?_) (List.mem_range.2 hu)
    · obtain ⟨w, hw, hlen⟩ := hx
      refine ⟨w ++ [y], hw.concat (hg.mem_children.1 hy).2, ?_⟩
      rw [List.length_append]
      omega
    · obtain rfl := List.mem_singleton.1 hx
      exact ⟨[x] ++ [y], (IsWalk.single g.edges x).concat (hg.mem_children.1 hy).2, Nat.one_lt_two⟩
  · rintro ⟨w, hw, -⟩
    -- along the walk there are only the start and vertices that are seen
    have hseen := (hw.leaves (P := fun x => x = v ∨ x ∉ depthFirst g.children (List.range g.size) [v])
      (Q := fun _ => False) (Or.inl rfl) fun a b ha hedge => ?_)
    · rcases hseen with (rfl | hseen) | ⟨-, -, hfalse⟩
      · exact absurd rfl hne
      · exact hseen
      · exact hfalse.elim
    · by_cases hloop : b = a
      · exact Or.inl (hloop ▸ ha)
      refine Or.inl (Or.inr (not_mem_depthFirst_of_next ?_ (hg.mem_children.2 ⟨hloop, hedge⟩)))
      exact ha.imp List.mem_singleton.2 fun ha => ⟨List.mem_range.2 (hg.edge_lt a b hedge).1, ha⟩

theorem lt_size_of_isWalk (hg : g.Sound) (hv : v < g.size) {p : List Nat} (hw : IsWalk g.edges v u p) : u < g.size := by
  have hinside := hw.leaves (P := fun x => x < g.size) (Q := fun _ => False) hv fun a b _ hedge =>
    Or.inl (hg.edge_lt a b hedge).2
  rcases hinside with hlt | ⟨-, -, hfalse⟩
  · exact hlt
  · exact hfalse.elim

/-- The positions of all dependents of a vertex. -/
theorem exists_allDependents (hg : g.Sound) (hv : v < g.size) : ∃ us : List Nat, us.Pairwise (· < ·) ∧
    (∀ u, u ∈ us ↔ u ≠ v ∧ ∃ w, IsWalk g.edges v u w ∧ 1 < w.length) ∧
    g.allDependents (g.vertex v) = .ok (us.map g.vertex) := by
  refine ⟨(List.range g.size).filter fun u => u != v && !(depthFirst g.children (List.range g.size) [v]).contains u,
    List.pairwise_lt_range.filter _, fun u => ?_, ?_⟩
  · rw [List.mem_filter, List.mem_range, Bool.and_eq_true, bne_iff_ne, Bool.not_eq_true', ← Bool.not_eq_true,
      List.contains_iff_mem]
    constructor
    · rintro ⟨hu, hne, hseen⟩
      exact ⟨hne, (mem_depthFirst_iff hg hu hne).1 hseen⟩
    · rintro ⟨hne, w, hw, hlen⟩
      have hu := lt_size_of_isWalk hg hv hw
      exact ⟨hu, hne, (mem_depthFirst_iff hg hu hne).2 ⟨w, hw, hlen⟩⟩
  · rw [allDependents, locate, hg.position?_vertex hv]
    rfl

end Graph

/-! ## Main statement -/

/-- The dependents of a vertex of a record that has a graph: the other vertices that a walk of one or more of its edges
leads to, in declaration order and each once. The root is one of them when a walk leads back to it. -/
theorem allDependents_eq (r : Record) (g : Graph) (h : Graph.ofRecord r = .ok g) (v : Nat) (hv : v < r.nodes.length) :
    ∃ us : List Nat, us.Pairwise (· < ·) ∧
      (∀ u, u ∈ us ↔ u ≠ v ∧ ∃ w, IsWalk r.links v u w ∧ 1 < w.length) ∧
      g.allDependents (r.target v) = .ok (us.map r.target) ∧ (us.map r.target).Nodup := by
  have hsound := Graph.sound_of_ofRecord h
  obtain ⟨hnodup, -, hholds, -, -, hblocks, -⟩ := Graph.ofRecord_eq_ok h
  have hsize : g.size = r.nodes.length := congrArg List.length hblocks
  have hedges := Graph.edges_eq_links h
  obtain ⟨us, hascending, hmem, hall⟩ := Graph.exists_allDependents hsound (hsize ▸ hv)
  rw [Graph.vertex_eq_target h] at hall
  have hmem' : ∀ u, u ∈ us ↔ u ≠ v ∧ ∃ w, IsWalk r.links v u w ∧ 1 < w.length := by
    intro u
    rw [hmem, hedges]
    simp only [Graph.isWalk_eraseDups]
  refine ⟨us, hascending, hmem', hall, List.Nodup.map_on (fun x hx y hy heq => ?_) (hascending.imp Nat.ne_of_lt)⟩
  have hlt : ∀ u ∈ us, u < r.nodes.length := by
    intro u hu
    obtain ⟨-, w, hw, -⟩ := (hmem u).1 hu
    exact hsize ▸ Graph.lt_size_of_isWalk hsound (hsize ▸ hv) hw
  exact Record.target_inj hnodup (hlt x hx) (hlt y hy) heq

/-- A walk leads from block 1 back to the root, and from there to all vertices, block 1 included, which is no dependent
of its own. -/
theorem allDependents_eq_crossedRecord : ∃ (g : Graph) (us : List Nat), Graph.ofRecord crossedRecord = .ok g ∧
    1 < crossedRecord.nodes.length ∧ g.allDependents (crossedRecord.target 1) = .ok (us.map crossedRecord.target) ∧
    us.map crossedRecord.target = [.root "f", ⟨"f", 2⟩, ⟨"f", 3⟩, ⟨"f", 4⟩, ⟨"f", 5⟩] ∧
    ∀ u, u ∈ us ↔ u ≠ 1 ∧ ∃ w, IsWalk crossedRecord.links 1 u w ∧ 1 < w.length := by
  have hrun : (do
      let g ← (Graph.ofRecord crossedRecord).toOption
      (g.allDependents (crossedRecord.target 1)).toOption) =
        some [.root "f", ⟨"f", 2⟩, ⟨"f", 3⟩, ⟨"f", 4⟩, ⟨"f", 5⟩] := by decide +kernel
  obtain ⟨g, hg, hrun⟩ := Option.bind_eq_some_iff.1 hrun
  rw [toOption_eq_some] at hg hrun
  obtain ⟨us, -, hmem, hall, -⟩ := allDependents_eq crossedRecord g hg 1 (by decide)
  exact ⟨g, us, hg, by decide, hall, Except.ok.inj (hall.symm.trans hrun), hmem⟩

end CoverSearch
