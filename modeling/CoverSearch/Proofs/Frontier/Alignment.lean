import CoverSearch.Proofs.Analysis.Records
import CoverSearch.Proofs.Frontier.Objectives
import CoverSearch.Proofs.Graph.Paths
import Mathlib.Data.List.Flatten
import Mathlib.Logic.Relation

/-!
# The frontier of some records

The frontier of an analysis speaks of objectives by their positions, the records speak of targets. The two agree: roots
and dependents are the positions of the targets that an edge leads to, from the root sentinel of their unit and from the
target of the objective. The lists ascend, because they take targets of each graph in the order of declaration, as the
objectives do, and a part of the targets in this order has ascending positions. As every vertex of a graph is reached
from its root, every objective is reached from the roots of the frontier.

* `Record.Leads`, `Analysis.Leads` : an edge of a record, and of one of some records, between two targets;
* `Analysis.mem_edges_iff` : the edges of the graphs are those of the records;
* `Frontier.pairwise_lastIndex?` : positions of targets that come in the order of the objectives;
* `Frontier.Controls.exists_reflTransGen` : every objective is reached;
* `Frontier.Controls.mem_roots_iff_leads`, `Frontier.Controls.mem_dependents_iff_leads` : roots and dependents by the
  edges of the records;
* `Frontier.Aligned` : a frontier that speaks of the edges of records; `Frontier.ofAnalysis_aligned` : so does that of
  their analysis.
-/

namespace CoverSearch

variable {records : List Record} {a : Analysis} {g : Graph} {o o' : BlockObjective} {t t' : Target} {u v i k : Nat}

/-! ## Edges of records -/

/-- An edge of the record leads from one target to the other. -/
def Record.Leads (r : Record) (t t' : Target) : Prop :=
  t.unit = r.unit ∧ t'.unit = r.unit ∧
    ∃ e ∈ r.edges, r.nodes[e.controller.toNat]? = some t.block ∧ r.nodes[e.dependent.toNat]? = some t'.block

namespace Analysis

/-- An edge of one of the records leads from one target to the other. -/
def Leads (records : List Record) (t t' : Target) : Prop := ∃ r ∈ records, r.Leads t t'

theorem mem_graphs_iff (h : ofRecords records = .ok a) : g ∈ a.graphs ↔ ∃ r ∈ records, Graph.ofRecord r = .ok g := by
  obtain ⟨graphs, hgraphs, hperm, -⟩ := gather_eq_ok.1 h
  rw [hperm.mem_iff, mem_of_mapM_eq_ok hgraphs]

theorem unit_eq_of_leads (h : Leads records t t') : t'.unit = t.unit := by
  obtain ⟨r, -, hunit, hunit', -⟩ := h
  exact hunit'.trans hunit.symm

theorem mem_edges_iff (h : ofRecords records = .ok a) (hg : g ∈ a.graphs) (hu : u < g.size) (hv : v < g.size) :
    (u, v) ∈ g.edges ↔ Leads records (g.vertex u) (g.vertex v) := by
  have hsound := sound_of_ofRecords h
  obtain ⟨r, hr, hgraph⟩ := (mem_graphs_iff h).1 hg
  obtain ⟨-, -, -, -, hunit, hblocks, -⟩ := Graph.ofRecord_eq_ok hgraph
  have hblock : ∀ {w : Nat}, w < g.size → r.nodes[w]? = some (g.vertex w).block := by
    intro w hw
    rw [Graph.vertex_eq hw, ← hblocks]
    exact List.getElem?_eq_getElem hw
  constructor
  · intro hedge
    rw [Graph.edges_eq_links hgraph, List.mem_eraseDups] at hedge
    obtain ⟨e, he, heq⟩ := List.mem_map.1 hedge
    obtain ⟨rfl, rfl⟩ := Prod.mk.inj heq
    exact ⟨r, hr, hunit, hunit, e, he, hblock hu, hblock hv⟩
  · rintro ⟨r', hr', hunit', -, e, he, hcontroller, hdependent⟩
    -- the record is the one that the graph was made of, as there is one graph of its unit
    obtain ⟨g', hgraph'⟩ := (exists_ofRecords_iff.1 ⟨a, h⟩).1 r' hr'
    obtain ⟨-, -, hholds', -, hunitg', hblocks', -⟩ := Graph.ofRecord_eq_ok hgraph'
    obtain rfl := hsound.eq_of_unit ((mem_graphs_iff h).2 ⟨r', hr', hgraph'⟩) hg (hunitg'.trans hunit'.symm)
    have hposition : ∀ {w x : Nat}, w < g'.size → r'.nodes[x]? = some (g'.vertex w).block → x = w := by
      intro w x hw hx
      obtain ⟨hlt, heq⟩ := List.getElem?_eq_some_iff.1 hx
      simp only [Graph.vertex_eq hw, ← hblocks'] at heq
      exact (List.Nodup.getElem_inj_iff (hsound.sound g' hg).nodup).1 heq
    rw [Graph.edges_eq_links hgraph', List.mem_eraseDups]
    exact List.mem_map.2 ⟨e, he, Prod.ext (hposition hu hcontroller) (hposition hv hdependent)⟩

/-- Edges from the root to objectives. -/
theorem root_mem_edges_iff (h : ofRecords records = .ok a) (ho : o ∈ a.objectives) :
    (o.graph.root, o.position) ∈ o.graph.edges ↔ Leads records (.root o.target.unit) o.target := by
  have hg := (mem_objectives.1 ho).1
  have hsound := (sound_of_ofRecords h).sound _ hg
  rw [mem_edges_iff h hg hsound.root_lt o.position_lt, hsound.vertex_root, o.vertex_position, o.unit_target]

/-- Edges from one objective to another. -/
theorem position_mem_edges_iff (h : ofRecords records = .ok a) (ho : o ∈ a.objectives) (ho' : o' ∈ a.objectives) :
    o'.graph = o.graph ∧ o'.position ≠ o.position ∧ (o.position, o'.position) ∈ o.graph.edges ↔
      o'.target ≠ o.target ∧ Leads records o.target o'.target := by
  have hg := (mem_objectives.1 ho).1
  have hedges : o'.graph = o.graph →
      ((o.position, o'.position) ∈ o.graph.edges ↔ Leads records o.target o'.target) := by
    intro hgraph
    have hlt : o'.position < o.graph.size := hgraph ▸ o'.position_lt
    rw [mem_edges_iff h hg o.position_lt hlt, o.vertex_position, ← hgraph, o'.vertex_position]
  constructor
  · rintro ⟨hgraph, hne, hedge⟩
    refine ⟨fun htarget => hne ?_, (hedges hgraph).1 hedge⟩
    have hposition := o'.position?_eq
    rw [hgraph, htarget, o.position?_eq] at hposition
    exact (Option.some.inj hposition).symm
  · rintro ⟨hne, hleads⟩
    have hgraph : o'.graph = o.graph := by
      refine (sound_of_ofRecords h).eq_of_unit (mem_objectives.1 ho').1 hg ?_
      rw [← o'.unit_target, ← o.unit_target, unit_eq_of_leads hleads]
    refine ⟨hgraph, fun hposition => hne ?_, (hedges hgraph).2 hleads⟩
    rw [← o'.vertex_position, hgraph, hposition, o.vertex_position]

end Analysis

/-! ## Targets in order -/

namespace Graph

theorem map_vertex_range (g : Graph) : (List.range g.size).map g.vertex = g.vertices := by
  refine List.ext_getElem (by simp [size, vertices]) fun i hi hi' => ?_
  simp only [vertices, List.getElem_map, List.getElem_range]
  exact vertex_eq (by simpa [vertices] using hi')

/-- The children of a vertex come in the order of the targets. -/
theorem filter_children_sublist (g : Graph) (v : Nat) :
    (((g.children v).map g.vertex).filter (!·.isRoot)).Sublist g.targets := by
  rw [targets, ← map_vertex_range]
  exact (List.filter_sublist.map g.vertex).filter _

end Graph

namespace Frontier

variable {f : Frontier} {l : List Target}

theorem getElem?_map_target : (a.objectives.map (·.target))[k]? = some t ↔
    ∃ o : BlockObjective, a.objectives[k]? = some o ∧ o.target = t := by
  rw [List.getElem?_map, Option.map_eq_some_iff]

/-- Targets that come in the order of the objectives have ascending positions. -/
theorem pairwise_lastIndex? (ha : a.Sound) (h : (l.filter (!·.isRoot)).Sublist (a.objectives.map (·.target))) :
    (l.filterMap (lastIndex? a.objectives)).Pairwise (· < ·) := by
  have hroot : ∀ {t k}, lastIndex? a.objectives t = some k → (!t.isRoot) = true := by
    intro t k hk
    obtain ⟨o, ho, rfl⟩ := (lastIndex?_objectives ha).1 hk
    have htarget := (Analysis.mem_objectives.1 (List.mem_of_getElem? ho)).2
    exact (List.mem_filter.1 htarget).2
  have hordered : (a.objectives.map (·.target)).Pairwise fun t t' => ∀ k, lastIndex? a.objectives t = some k →
      ∀ k', lastIndex? a.objectives t' = some k' → k < k' := by
    have hindex : ∀ {i k} (hi : i < a.objectives.length),
        lastIndex? a.objectives a.objectives[i].target = some k → k = i := fun hi hk =>
      Option.some.inj (hk.symm.trans ((lastIndex?_objectives ha).2 ⟨_, List.getElem?_eq_getElem hi, rfl⟩))
    refine List.pairwise_map.2 (List.pairwise_iff_getElem.2 fun i j hi hj hlt k hk k' hk' => ?_)
    rwa [hindex hi hk, hindex hj hk']
  refine List.pairwise_filterMap.2 ((List.pairwise_filter.1 (hordered.sublist h)).imp fun hlt k hk k' hk' => ?_)
  exact hlt (hroot hk) (hroot hk') k hk k' hk'

theorem pairwise_independentTargets (ha : a.Sound) :
    (a.independentTargets.filterMap (lastIndex? a.objectives)).Pairwise (· < ·) := by
  refine pairwise_lastIndex? ha ?_
  rw [Analysis.map_target_objectives, Analysis.independentTargets, List.filter_flatMap]
  exact .flatMap_right _ fun g _ => g.filter_children_sublist g.root

theorem pairwise_dependents (ha : a.Sound) (ho : o ∈ a.objectives) :
    (((o.graph.children o.position).map o.graph.vertex).filterMap (lastIndex? a.objectives)).Pairwise (· < ·) := by
  refine pairwise_lastIndex? ha ((o.graph.filter_children_sublist o.position).trans ?_)
  rw [Analysis.map_target_objectives, List.flatMap_def]
  exact List.sublist_flatten_of_mem (List.mem_map_of_mem (Analysis.mem_objectives.1 ho).1)

/-! ## Reach -/

/-- Every objective is reached from a root. -/
theorem Controls.exists_reflTransGen (h : f.Controls a.objectives) (ha : a.Sound) (hk : a.objectives[k]? = some o) :
    ∃ r ∈ f.roots, Relation.ReflTransGen f.Awaits r k := by
  have hmem := List.mem_of_getElem? hk
  have hg := (Analysis.mem_objectives.1 hmem).1
  obtain ⟨w, hw⟩ := (ha.sound _ hg).reachable _ o.position_lt
  -- along a walk from the root all vertices are reached, and those other than the root as objectives
  have hreached := (hw.leaves (Q := fun _ => False)
    (P := fun v => v = o.graph.root ∨ ∃ k o', a.objectives[k]? = some o' ∧ o'.graph = o.graph ∧ o'.position = v ∧
      ∃ r ∈ f.roots, Relation.ReflTransGen f.Awaits r k) (Or.inl rfl) ?_)
  · rcases hreached with (hroot | ⟨k', o', hk', hsame, hposition, hreach⟩) | ⟨-, -, hfalse⟩
    · exact absurd hroot (ha.position_ne_root hmem)
    · exact index_eq_of_position ha hk hk' hsame hposition ▸ hreach
    · exact hfalse.elim
  · intro u v hu hedge
    by_cases hroot : v = o.graph.root
    · exact Or.inl (Or.inl hroot)
    by_cases hloop : v = u
    · exact Or.inl (hloop ▸ hu)
    obtain ⟨k', o', hk', hgraph, hposition, hroots, hawaits⟩ := h.exists_of_edge ha hg hedge hroot hloop
    refine Or.inl (Or.inr ⟨k', o', hk', hgraph, hposition, ?_⟩)
    rcases hu with rfl | ⟨j, o'', hj, hsame, hstart, r, hr, hreach⟩
    · exact ⟨k', hroots rfl, .refl⟩
    · exact ⟨r, hr, hreach.tail (hawaits j o'' hj hsame hstart)⟩

/-! ## Edges of records among objectives -/

namespace Controls

theorem mem_roots_iff_leads (hf : f.Controls a.objectives) (h : Analysis.ofRecords records = .ok a) : k ∈ f.roots ↔
    ∃ t, (a.objectives.map (·.target))[k]? = some t ∧ Analysis.Leads records (.root t.unit) t := by
  rw [hf.mem_roots]
  constructor
  · rintro ⟨o, ho, hedge⟩
    exact ⟨o.target, getElem?_map_target.2 ⟨o, ho, rfl⟩,
      (Analysis.root_mem_edges_iff h (List.mem_of_getElem? ho)).1 hedge⟩
  · rintro ⟨t, ht, hleads⟩
    obtain ⟨o, ho, rfl⟩ := getElem?_map_target.1 ht
    exact ⟨o, ho, (Analysis.root_mem_edges_iff h (List.mem_of_getElem? ho)).2 hleads⟩

theorem mem_dependents_iff_leads (hf : f.Controls a.objectives) (h : Analysis.ofRecords records = .ok a)
    {next : List Nat} (ht : (a.objectives.map (·.target))[i]? = some t) (hnext : f.dependents[i]? = some next) :
    k ∈ next ↔ ∃ t', (a.objectives.map (·.target))[k]? = some t' ∧ t' ≠ t ∧ Analysis.Leads records t t' := by
  obtain ⟨o, ho, rfl⟩ := getElem?_map_target.1 ht
  obtain ⟨next', hnext', hmem⟩ := hf.mem_dependents i o ho
  obtain rfl := Option.some.inj (hnext.symm.trans hnext')
  rw [hmem]
  constructor
  · rintro ⟨o', ho', hedge⟩
    exact ⟨o'.target, getElem?_map_target.2 ⟨o', ho', rfl⟩, (Analysis.position_mem_edges_iff h
      (List.mem_of_getElem? ho) (List.mem_of_getElem? ho')).1 hedge⟩
  · rintro ⟨t', ht', hleads⟩
    obtain ⟨o', ho', rfl⟩ := getElem?_map_target.1 ht'
    exact ⟨o', ho', (Analysis.position_mem_edges_iff h
      (List.mem_of_getElem? ho) (List.mem_of_getElem? ho')).2 hleads⟩

end Controls

/-! ## Main statement -/

/-- A frontier whose roots and dependents are the positions of the targets that edges of records lead to, in ascending
order; each of these targets has a position, and each position is reached from a root. -/
structure Aligned (f : Frontier) (records : List Record) (targets : List Target) : Prop where
  exists_position : ∀ t t', Analysis.Leads records t t' → t'.isRoot = false → ∃ k : Nat, targets[k]? = some t'
  pairwise_roots : f.roots.Pairwise (· < ·)
  mem_roots : ∀ k, k ∈ f.roots ↔ ∃ t, targets[k]? = some t ∧ Analysis.Leads records (.root t.unit) t
  size_dependents : f.dependents.size = targets.length
  pairwise_dependents : ∀ next ∈ f.dependents, next.Pairwise (· < ·)
  mem_dependents : ∀ (i : Nat) t next, targets[i]? = some t → f.dependents[i]? = some next → ∀ k, k ∈ next ↔
    ∃ t', targets[k]? = some t' ∧ t' ≠ t ∧ Analysis.Leads records t t'
  unit_eq : ∀ i j t t', f.Awaits i j → targets[i]? = some t → targets[j]? = some t' → t'.unit = t.unit
  reached : ∀ k < targets.length, ∃ r ∈ f.roots, Relation.ReflTransGen f.Awaits r k

/-- The frontier of an analysis of records follows their edges. -/
theorem ofAnalysis_aligned (records : List Record) (a : Analysis) (h : Analysis.ofRecords records = .ok a) :
    ∃ f, ofAnalysis a a.objectives = .ok f ∧ f.Aligned records (a.objectives.map (·.target)) := by
  have ha := Analysis.sound_of_ofRecords h
  obtain ⟨f, hf, hcontrols⟩ := controls_ofAnalysis ha
  have heq := Except.ok.inj (hf.symm.trans (ofAnalysis_eq ha))
  refine ⟨f, hf, fun t t' hleads hroot => ?_, ?_, fun k => hcontrols.mem_roots_iff_leads h, ?_, fun next hnext => ?_,
    fun i t next ht hnext k => hcontrols.mem_dependents_iff_leads h ht hnext, ?_, fun k hk => ?_⟩
  · obtain ⟨r, hr, -, hunit, e, -, -, hnode⟩ := hleads
    exact List.mem_iff_getElem?.1 (((Analysis.arranges_of_ofRecords h).mem_iff t').2
      ⟨r, hr, hunit, List.mem_of_getElem? hnode, beq_eq_false_iff_ne.1 hroot⟩)
  · rw [heq]
    exact pairwise_independentTargets ha
  · rw [hcontrols.size_dependents, List.length_map]
  · rw [heq] at hnext
    obtain ⟨o, ho, rfl⟩ := List.mem_map.1 (List.mem_toArray.1 hnext)
    exact pairwise_dependents ha ho
  · rintro i j t t' ⟨next, hnext, hj⟩ ht ht'
    obtain ⟨t'', ht'', -, hleads⟩ := (hcontrols.mem_dependents_iff_leads h ht hnext).1 hj
    obtain rfl := Option.some.inj (ht'.symm.trans ht'')
    exact Analysis.unit_eq_of_leads hleads
  · rw [List.length_map] at hk
    exact hcontrols.exists_reflTransGen ha (List.getElem?_eq_getElem hk)

/-- Two units, the later one first. Among their edges are a self loop, a repeated one and one back to the root. -/
def twoUnits : List Record :=
  [{ unit := "g", nodes := [5, rootBlock, 6, 7], edges := [⟨1, 2⟩, ⟨2, 0⟩, ⟨2, 2⟩, ⟨2, 0⟩, ⟨2, 3⟩, ⟨0, 2⟩, ⟨3, 1⟩] },
    { unit := "f", nodes := [rootBlock, 5], edges := [⟨0, 1⟩] }]

/-- Positions count through both units, the first unit in front. -/
theorem ofAnalysis_aligned_twoUnits : ∃ a f, Analysis.ofRecords twoUnits = .ok a ∧ ofAnalysis a a.objectives = .ok f ∧
    f.roots = [0, 2] ∧ f.dependents = #[[], [2], [1, 3], []] ∧
    f.Aligned twoUnits (a.objectives.map (·.target)) := by
  have hrun : (do
      let a ← (Analysis.ofRecords twoUnits).toOption
      let f ← (ofAnalysis a a.objectives).toOption
      return (f.roots, f.dependents)) = some ([0, 2], #[[], [2], [1, 3], []]) := by decide +kernel
  obtain ⟨a, ha, hrun⟩ := Option.bind_eq_some_iff.1 hrun
  obtain ⟨f, hf, hrun⟩ := Option.bind_eq_some_iff.1 hrun
  rw [toOption_eq_some] at ha hf
  obtain ⟨hroots, hdependents⟩ := Prod.mk.inj (Option.some.inj hrun)
  obtain ⟨f', hf', haligned⟩ := ofAnalysis_aligned twoUnits a ha
  obtain rfl := Except.ok.inj (hf'.symm.trans hf)
  exact ⟨a, f', ha, hf, hroots, hdependents, haligned⟩

end Frontier

end CoverSearch
