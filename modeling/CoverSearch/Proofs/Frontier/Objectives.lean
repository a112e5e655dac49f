import CoverSearch.Frontier
import CoverSearch.Proofs.Analysis.Objectives

/-!
# The frontier of an analysis

Objectives of an analysis are found again by their targets, so that the frontier is the control dependence of its
graphs in terms of objectives: its roots are the objectives whose vertices the root of their graph controls, and its
dependents those whose vertices the vertex of an objective controls.

* `Frontier.lastIndex?_objectives` : the position of an objective;
* `Frontier.Controls` : a frontier that follows the graphs;
* `Frontier.ofAnalysis_eq`, `Frontier.controls_ofAnalysis` : the frontier of an analysis exists and does so;
* `Frontier.Awaits`, `Frontier.Controls.exists_of_edge` : along the edges of a graph objectives are roots of the
  frontier or wait for one another.
-/

namespace CoverSearch.Frontier

variable {a : Analysis} {o : BlockObjective} {t : Target} {i k : Nat}

/-- A frontier whose roots and dependents are those of the graphs of some objectives. -/
structure Controls (f : Frontier) (objectives : List BlockObjective) : Prop where
  size_dependents : f.dependents.size = objectives.length
  mem_roots : ∀ k, k ∈ f.roots ↔
    ∃ o : BlockObjective, objectives[k]? = some o ∧ (o.graph.root, o.position) ∈ o.graph.edges
  mem_dependents : ∀ (i : Nat) (o : BlockObjective), objectives[i]? = some o → ∃ next, f.dependents[i]? = some next ∧
    ∀ k, k ∈ next ↔ ∃ o' : BlockObjective, objectives[k]? = some o' ∧ o'.graph = o.graph ∧
      o'.position ≠ o.position ∧ (o.position, o'.position) ∈ o.graph.edges

theorem Controls.congr {f f' : Frontier} {objectives : List BlockObjective} (h : f.Controls objectives)
    (hroots : f'.roots = f.roots) (hdependents : f'.dependents = f.dependents) : f'.Controls objectives :=
  ⟨hdependents ▸ h.size_dependents, hroots ▸ h.mem_roots, hdependents ▸ h.mem_dependents⟩

/-! ## Objectives by their targets -/

/-- The last position of a target among objectives. -/
theorem lastIndex?_eq_some {objectives : List BlockObjective} : lastIndex? objectives t = some i ↔
    ∃ h : i < objectives.length, objectives[i].target = t ∧
      ∀ j (hj : j < objectives.length), i < j → objectives[j].target ≠ t := by
  rw [lastIndex?, Option.map_eq_some_iff]
  simp only [List.findIdx?_eq_some_iff_getElem, List.length_reverse, List.getElem_reverse, beq_iff_eq]
  constructor
  · rintro ⟨k, ⟨hk, htarget, hbefore⟩, rfl⟩
    refine ⟨by omega, htarget, fun j hj hlt => ?_⟩
    have hnot := hbefore (objectives.length - 1 - j) (by omega)
    simp only [show objectives.length - 1 - (objectives.length - 1 - j) = j by omega] at hnot
    exact hnot
  · rintro ⟨hi, htarget, hafter⟩
    refine ⟨objectives.length - 1 - i, ⟨by omega, ?_, fun j hj => ?_⟩, by omega⟩
    · simp only [show objectives.length - 1 - (objectives.length - 1 - i) = i by omega]
      exact htarget
    · exact hafter (objectives.length - 1 - j) (by omega) (by omega)

/-- Without repeats there is one position. -/
theorem lastIndex?_objectives (ha : a.Sound) :
    lastIndex? a.objectives t = some i ↔ ∃ o, a.objectives[i]? = some o ∧ o.target = t := by
  rw [lastIndex?_eq_some]
  constructor
  · rintro ⟨hi, htarget, -⟩
    exact ⟨_, List.getElem?_eq_getElem hi, htarget⟩
  · rintro ⟨o, ho, htarget⟩
    obtain ⟨hi, rfl⟩ := List.getElem?_eq_some_iff.1 ho
    refine ⟨hi, htarget, fun j hj hlt heq => ?_⟩
    exact (List.pairwise_iff_getElem.1 (List.pairwise_map.1 ha.nodup_objectives) i j hi hj hlt) (htarget.trans heq.symm)

/-- One vertex, one position. -/
theorem index_eq_of_position (ha : a.Sound) {o' : BlockObjective} (ho : a.objectives[i]? = some o)
    (ho' : a.objectives[k]? = some o') (hgraph : o'.graph = o.graph) (hposition : o'.position = o.position) :
    k = i := by
  have htarget : o'.target = o.target := by
    rw [← o'.vertex_position, hposition, hgraph, o.vertex_position]
  exact Option.some.inj (((lastIndex?_objectives ha).2 ⟨o', ho', htarget⟩).symm.trans
    ((lastIndex?_objectives ha).2 ⟨o, ho, rfl⟩))

/-- The positions of the children of a vertex that are no root. -/
theorem mem_filterMap_children (ha : a.Sound) {g : Graph} (hg : g ∈ a.graphs) (v : Nat) :
    k ∈ ((g.children v).map g.vertex).filterMap (lastIndex? a.objectives) ↔
      ∃ o, a.objectives[k]? = some o ∧ o.graph = g ∧ o.position ≠ v ∧ (v, o.position) ∈ g.edges := by
  rw [List.filterMap_map, List.mem_filterMap]
  constructor
  · rintro ⟨x, hx, hk⟩
    obtain ⟨o, ho, htarget⟩ := (lastIndex?_objectives ha).1 hk
    obtain ⟨hne, hedge⟩ := (ha.sound g hg).mem_children.1 hx
    have hgraph : o.graph = g := by
      refine ha.eq_of_unit (Analysis.mem_objectives.1 (List.mem_of_getElem? ho)).1 hg ?_
      rw [← o.unit_target, htarget]
      rfl
    have hposition : o.position = x := by
      have hpos := (ha.sound g hg).position?_vertex ((ha.sound g hg).edge_lt v x hedge).2
      rw [← htarget, ← hgraph] at hpos
      exact Option.some.inj (o.position?_eq.symm.trans hpos)
    exact ⟨o, ho, hgraph, hposition ▸ hne, hposition ▸ hedge⟩
  · rintro ⟨o, ho, rfl, hne, hedge⟩
    exact ⟨o.position, (ha.sound _ hg).mem_children.2 ⟨hne, hedge⟩,
      (lastIndex?_objectives ha).2 ⟨o, ho, o.vertex_position.symm⟩⟩

/-! ## The frontier -/

/-- An objective of an analysis has dependents. -/
theorem dependents_objective (ha : a.Sound) (ho : o ∈ a.objectives) :
    a.dependents o.target = .ok ((o.graph.children o.position).map o.graph.vertex) := by
  rw [Analysis.dependents, o.unit_target, ha.graphOf_unit (Analysis.mem_objectives.1 ho).1]
  show o.graph.dependents o.target = _
  rw [Graph.dependents, Graph.locate, o.position?_eq]
  rfl

theorem mem_independentTargets (ha : a.Sound) : k ∈ a.independentTargets.filterMap (lastIndex? a.objectives) ↔
    ∃ o : BlockObjective, a.objectives[k]? = some o ∧ (o.graph.root, o.position) ∈ o.graph.edges := by
  rw [Analysis.independentTargets, List.filterMap_flatMap, List.mem_flatMap]
  constructor
  · rintro ⟨g, hg, hk⟩
    obtain ⟨o, ho, rfl, -, hedge⟩ := (mem_filterMap_children ha hg g.root).1 hk
    exact ⟨o, ho, hedge⟩
  · rintro ⟨o, ho, hedge⟩
    have hmem := List.mem_of_getElem? ho
    have hg := (Analysis.mem_objectives.1 hmem).1
    exact ⟨o.graph, hg, (mem_filterMap_children ha hg _).2 ⟨o, ho, rfl, ha.position_ne_root hmem, hedge⟩⟩

/-- The frontier of an analysis: the positions of the children of roots, and of the vertex of each objective. -/
theorem ofAnalysis_eq (ha : a.Sound) : ofAnalysis a a.objectives = .ok
    (new (a.independentTargets.filterMap (lastIndex? a.objectives)) (a.objectives.map fun o =>
      ((o.graph.children o.position).map o.graph.vertex).filterMap (lastIndex? a.objectives)).toArray) := by
  have hdependents : ∀ o ∈ a.objectives, (do
      return (← a.dependents o.target).filterMap (lastIndex? a.objectives) : Except Fault (List Nat)) =
        .ok (((o.graph.children o.position).map o.graph.vertex).filterMap (lastIndex? a.objectives)) := by
    intro o ho
    rw [dependents_objective ha ho]
    rfl
  exact bind_eq_ok.2 ⟨_, mapM_eq_ok_map hdependents, rfl⟩

/-- An analysis has a frontier, and it follows the graphs. -/
theorem controls_ofAnalysis (ha : a.Sound) : ∃ f, ofAnalysis a a.objectives = .ok f ∧ f.Controls a.objectives := by
  refine ⟨_, ofAnalysis_eq ha, ?_, fun k => mem_independentTargets ha, fun i o ho => ?_⟩
  · show (List.toArray _).size = _
    rw [List.size_toArray, List.length_map]
  · refine ⟨_, ?_, fun k => mem_filterMap_children ha (Analysis.mem_objectives.1 (List.mem_of_getElem? ho)).1 _⟩
    show (List.toArray _)[i]? = _
    rw [List.getElem?_toArray, List.getElem?_map, ho]
    rfl

/-! ## Edges -/

/-- The second objective waits for the first. -/
def Awaits (f : Frontier) (i j : Nat) : Prop := ∃ next, f.dependents[i]? = some next ∧ j ∈ next

/-- The end of an edge is an objective, unless it is the root or the start. -/
theorem Controls.exists_of_edge {f : Frontier} (h : f.Controls a.objectives) (ha : a.Sound) {g : Graph}
    (hg : g ∈ a.graphs) {u v : Nat} (hedge : (u, v) ∈ g.edges) (hroot : v ≠ g.root) (hloop : v ≠ u) :
    ∃ k o, a.objectives[k]? = some o ∧ o.graph = g ∧ o.position = v ∧ (u = g.root → k ∈ f.roots) ∧
      ∀ j o', a.objectives[j]? = some o' → o'.graph = g → o'.position = u → f.Awaits j k := by
  obtain ⟨o, ho, rfl, -, rfl⟩ := ha.exists_objective hg ((ha.sound g hg).edge_lt u v hedge).2 hroot
  obtain ⟨k, hk⟩ := List.mem_iff_getElem?.1 ho
  refine ⟨k, o, hk, rfl, rfl, ?_, ?_⟩
  · rintro rfl
    exact (h.mem_roots k).2 ⟨o, hk, hedge⟩
  · rintro j o' ho' hsame rfl
    obtain ⟨next, hnext, hmem⟩ := h.mem_dependents j o' ho'
    exact ⟨next, hnext, (hmem k).2 ⟨o, hk, hsame.symm, hloop, hsame ▸ hedge⟩⟩

end CoverSearch.Frontier
