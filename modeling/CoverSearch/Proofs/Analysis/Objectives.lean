import CoverSearch.Analysis
import CoverSearch.Proofs.Graph.Build
import Mathlib.Data.List.Dedup

/-!
# The objectives of an analysis

The graphs of an analysis have distinct units, so a target names its graph and its objective.

* `Analysis.Sound` : sound graphs of distinct units; `Analysis.sound_of_ofRecords` : so is every analysis of records;
* `Analysis.graphOf_unit` : a unit names its graph;
* `BlockObjective.position` : the vertex of an objective;
* `Analysis.Sound.exists_objective` : every vertex other than a root has an objective, and
  `Analysis.Sound.nodup_objectives` : no two objectives share a target.
-/

namespace CoverSearch

/-- The position of the vertex of an objective. -/
def BlockObjective.position (o : BlockObjective) : Nat := (o.graph.position? o.target).get o.mem

namespace BlockObjective
variable {o : BlockObjective}

theorem position?_eq (o : BlockObjective) : o.graph.position? o.target = some o.position := (Option.some_get o.mem).symm

theorem position_lt (o : BlockObjective) : o.position < o.graph.size := (Graph.vertex_of_position? o.position?_eq).1

theorem vertex_position (o : BlockObjective) : o.graph.vertex o.position = o.target :=
  (Graph.vertex_of_position? o.position?_eq).2

theorem unit_target (o : BlockObjective) : o.target.unit = o.graph.unit := by
  rw [← o.vertex_position]
  rfl

end BlockObjective

namespace Analysis

variable {a : Analysis} {g : Graph} {t : Target} {o o' : BlockObjective}

/-- An analysis that later steps may rely on. -/
structure Sound (a : Analysis) : Prop where
  sound : ∀ g ∈ a.graphs, g.Sound
  nodup_units : (a.graphs.map Graph.unit).Nodup

/-! ## Construction -/

theorem insertSorted_perm (g : Graph) (graphs : List Graph) : (insertSorted g graphs).Perm (g :: graphs) := by
  induction graphs with
  | nil => exact List.Perm.refl _
  | cons h rest ih =>
    rw [insertSorted]
    split
    · exact List.Perm.refl _
    · exact (ih.cons h).trans (List.Perm.swap g h rest)

/-- One more sound graph. -/
theorem Sound.insert {a' : Analysis} (ha : a.Sound) (hg : g.Sound) (h : a.insert g = .ok a') : a'.Sound := by
  rw [Analysis.insert] at h
  split at h <;> rename_i hfind
  · exact nomatch h
  · obtain rfl := Except.ok.inj h
    have hfresh : g.unit ∉ a.graphs.map Graph.unit := by
      intro hmem
      obtain ⟨g', hg', hunit⟩ := List.mem_map.1 hmem
      exact hfind (List.find?_isSome.2 ⟨g', hg', beq_iff_eq.2 hunit⟩)
    have hperm := insertSorted_perm g a.graphs
    refine ⟨fun g' hg' => ?_, ?_⟩
    · rcases List.mem_cons.1 (hperm.mem_iff.1 hg') with rfl | hg'
      · exact hg
      · exact ha.sound g' hg'
    · exact (hperm.map Graph.unit).nodup_iff.2 (List.nodup_cons.2 ⟨hfresh, ha.nodup_units⟩)

theorem sound_of_ofRecords {records : List Record} (h : ofRecords records = .ok a) : a.Sound := by
  have hempty : ({} : Analysis).Sound := ⟨fun _ h => absurd h List.not_mem_nil, List.nodup_nil⟩
  refine foldlM_induction (P := Sound) (fun a r a' ha hr => ?_) hempty h
  obtain ⟨g, hg, hinsert⟩ := bind_eq_ok.1 hr
  exact ha.insert (Graph.sound_of_ofRecord hg) hinsert

/-! ## Graphs by unit -/

theorem Sound.eq_of_unit (ha : a.Sound) {g' : Graph} (hg : g ∈ a.graphs) (hg' : g' ∈ a.graphs)
    (h : g.unit = g'.unit) : g = g' := List.inj_on_of_nodup_map ha.nodup_units hg hg' h

theorem Sound.find?_unit (ha : a.Sound) (hg : g ∈ a.graphs) : a.find? g.unit = some g := by
  rcases h : a.find? g.unit with _ | g'
  · exact absurd (List.find?_eq_none.1 h g hg) (not_not_intro (beq_self_eq_true g.unit))
  · have hunit : (g'.unit == g.unit) = true := by simpa using List.find?_some h
    exact congrArg some (ha.eq_of_unit (List.mem_of_find?_eq_some h) hg (beq_iff_eq.1 hunit))

theorem Sound.graphOf_unit (ha : a.Sound) (hg : g ∈ a.graphs) : a.graphOf g.unit = .ok g := by
  rw [graphOf, ha.find?_unit hg]

/-! ## Objectives -/

theorem mem_objectives : o ∈ a.objectives ↔ o.graph ∈ a.graphs ∧ o.target ∈ o.graph.targets := by
  rw [objectives, List.mem_flatMap]
  constructor
  · rintro ⟨g, hg, ho⟩
    obtain ⟨t, -, rfl⟩ := List.mem_map.1 ho
    exact ⟨hg, t.2⟩
  · rintro ⟨hg, ht⟩
    exact ⟨o.graph, hg, List.mem_map.2 ⟨⟨o.target, ht⟩, List.mem_attach _ _, rfl⟩⟩

theorem map_target_objectives (a : Analysis) : a.objectives.map (·.target) = a.graphs.flatMap Graph.targets := by
  rw [objectives, List.map_flatMap]
  congr 1
  funext g
  rw [objectivesOf, List.map_map]
  exact List.attach_map_subtype_val g.targets

namespace Sound

theorem position_ne_root (ha : a.Sound) (ho : o ∈ a.objectives) : o.position ≠ o.graph.root := by
  obtain ⟨hg, ht⟩ := mem_objectives.1 ho
  obtain ⟨v, hv, hne⟩ := (ha.sound _ hg).mem_targets.1 ht
  obtain rfl := Option.some.inj (o.position?_eq.symm.trans hv)
  exact hne

/-- Every vertex that is no root has an objective. -/
theorem exists_objective (ha : a.Sound) (hg : g ∈ a.graphs) {v : Nat} (hv : v < g.size) (hne : v ≠ g.root) :
    ∃ o ∈ a.objectives, o.graph = g ∧ o.target = g.vertex v ∧ o.position = v := by
  have hpos := (ha.sound g hg).position?_vertex hv
  have ht : g.vertex v ∈ g.targets := (ha.sound g hg).mem_targets.2 ⟨v, hpos, hne⟩
  refine ⟨⟨g, g.vertex v, g.contains_of_mem_targets ht⟩, mem_objectives.2 ⟨hg, ht⟩, rfl, rfl, ?_⟩
  exact Option.some.inj ((BlockObjective.position?_eq _).symm.trans hpos)

theorem nodup_objectives (ha : a.Sound) : (a.objectives.map (·.target)).Nodup := by
  rw [map_target_objectives, List.nodup_flatMap]
  refine ⟨fun g hg => ?_, ?_⟩
  · refine List.Nodup.filter _ (List.Nodup.map (fun b c h => ?_) (ha.sound g hg).nodup)
    exact congrArg Target.block h
  · refine (List.pairwise_map.1 ha.nodup_units).imp fun hne t ht ht' => ?_
    exact hne ((Graph.unit_of_mem_targets ht).symm.trans (Graph.unit_of_mem_targets ht'))

end Sound

end Analysis

end CoverSearch
