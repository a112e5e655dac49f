import CoverSearch.Proofs.Graph.Walk
import CoverSearch.Proofs.Success
import Mathlib.Data.List.GetD
import Mathlib.Data.List.Nodup

/-!
# What construction guarantees

* `Graph.ofRecord_eq_ok` : the checks that a record has passed when it has a graph;
* `Graph.Sound` : distinct blocks, one of them the sentinel, edges between vertices, every vertex at the end of a walk
  from the root; `Graph.sound_of_ofRecord` : so is every graph of a record;
* `Graph.Sound.mem_targets`, `Graph.Sound.mem_children` : targets and direct dependents by their positions.
-/

namespace CoverSearch.Graph

variable {g : Graph} {t : Target} {u v x : Nat}

/-- A graph that later steps may rely on. -/
structure Sound (g : Graph) : Prop where
  nodup : g.blocks.Nodup
  root_eq : g.blocks[g.root]? = some rootBlock
  edge_lt : ∀ u v, (u, v) ∈ g.edges → u < g.size ∧ v < g.size
  reachable : ∀ v < g.size, ∃ w, IsWalk g.edges g.root v w

/-! ## The checks -/

theorem firstRepeat?_eq_none {α : Type} [BEq α] [LawfulBEq α] {before l : List α} :
    firstRepeat? before l = none ↔ l.Nodup ∧ ∀ a ∈ l, a ∉ before := by
  induction l generalizing before with
  | nil => simp [firstRepeat?]
  | cons a l ih =>
    rw [firstRepeat?, List.nodup_cons, List.forall_mem_cons]
    split <;> rename_i ha
    · constructor
      · intro h
        exact nomatch h
      · intro h
        exact absurd (List.contains_iff_mem.1 ha) h.2.1
    · rw [ih]
      constructor
      · rintro ⟨hnodup, hnot⟩
        exact ⟨⟨fun h => hnot a h List.mem_cons_self, hnodup⟩, fun h => ha (List.contains_iff_mem.2 h),
          fun b hb h => hnot b hb (List.mem_cons_of_mem a h)⟩
      · rintro ⟨⟨hfresh, hnodup⟩, -, hnot⟩
        refine ⟨hnodup, fun b hb h => ?_⟩
        rcases List.mem_cons.1 h with rfl | h
        · exact hfresh hb
        · exact hnot b hb h

/-- Climbs to all positions are found only if all are reached. -/
theorem exists_mem_reach {n root : Nat} {edges : List (Nat × Nat)} {climbs : List (List Nat)}
    (h : climbsFrom n edges root = .ok climbs) (hv : v < n) :
    ∃ c ∈ reach n edges root, c.vertex = v ∧ climbs[v]? = some c.toList := by
  obtain ⟨l, hl, hok⟩ := getElem?_of_mapM_eq_ok h (List.getElem?_range hv)
  rcases hc : (reach n edges root).find? (·.vertex == v) with _ | c <;> rw [hc] at hok
  · exact nomatch hok
  · obtain rfl := Except.ok.inj hok
    have hvertex : (c.vertex == v) = true := by simpa using List.find?_some hc
    exact ⟨c, List.mem_of_find?_eq_some hc, beq_iff_eq.1 hvertex, hl⟩

/-- The checks that a record with a graph has passed, and what the graph takes from it. -/
theorem ofRecord_eq_ok {r : Record} (h : ofRecord r = .ok g) :
    r.nodes.Nodup ∧ r.nodes.idxOf? rootBlock = some g.root ∧
      (∀ e ∈ r.edges, e.controller.toNat < r.nodes.length ∧ e.dependent.toNat < r.nodes.length) ∧
      climbsFrom r.nodes.length g.edges g.root = .ok g.climbs ∧
      g.unit = r.unit ∧ g.blocks = r.nodes ∧
      g.edges = (r.edges.map fun e => (e.controller.toNat, e.dependent.toNat)).eraseDups := by
  rw [ofRecord] at h
  rcases hrepeat : firstRepeat? [] r.nodes with _ | block <;> rw [hrepeat] at h
  swap; · exact nomatch h
  rcases hroot : r.nodes.idxOf? rootBlock with _ | root <;> rw [hroot] at h
  · exact nomatch h
  rcases hedge : r.edges.find? fun e => r.nodes.length ≤ e.controller.toNat || r.nodes.length ≤ e.dependent.toNat
    with _ | e <;> simp only [hedge] at h
  swap; · exact nomatch h
  rcases hclimbs : climbsFrom r.nodes.length
    (r.edges.map fun e => (e.controller.toNat, e.dependent.toNat)).eraseDups root with v | climbs <;>
    rw [hclimbs] at h
  · exact nomatch h
  obtain rfl := Except.ok.inj h
  refine ⟨(firstRepeat?_eq_none.1 hrepeat).1, rfl, fun e he => ?_, hclimbs, rfl, rfl, rfl⟩
  have hbounds := List.find?_eq_none.1 hedge e he
  simp only [Bool.or_eq_true, decide_eq_true_eq] at hbounds
  omega

/-- The position of an element. -/
theorem getElem?_of_idxOf? {α : Type} [BEq α] [LawfulBEq α] {l : List α} {a : α} {i : Nat} (h : l.idxOf? a = some i) :
    l[i]? = some a := by
  obtain ⟨hi, rfl, -⟩ := List.idxOf?_eq_some_iff.1 h
  exact List.getElem?_eq_getElem hi

theorem sound_of_ofRecord {r : Record} (h : ofRecord r = .ok g) : g.Sound := by
  obtain ⟨hnodup, hroot, hedge, hclimbs, -, hblocks, hedges⟩ := ofRecord_eq_ok h
  refine ⟨hblocks ▸ hnodup, hblocks ▸ getElem?_of_idxOf? hroot, fun u v huv => ?_, fun v hv => ?_⟩
  · rw [hedges, List.mem_eraseDups] at huv
    obtain ⟨e, he, heq⟩ := List.mem_map.1 huv
    obtain ⟨rfl, rfl⟩ := Prod.mk.inj heq
    rw [size, hblocks]
    exact hedge e he
  · rw [size, hblocks] at hv
    obtain ⟨c, hc, rfl, -⟩ := exists_mem_reach hclimbs hv
    exact ⟨c.toList.reverse, isWalk_of_mem_reach hc⟩

/-! ## Positions -/

theorem vertex_of_position? (h : g.position? t = some v) : v < g.size ∧ g.vertex v = t := by
  rw [position?] at h
  by_cases hunit : t.unit = g.unit
  · rw [if_pos hunit] at h
    have hblock := getElem?_of_idxOf? h
    refine ⟨(List.getElem?_eq_some_iff.1 hblock).1, ?_⟩
    rw [vertex, List.getD_eq_getElem?_getD, hblock, ← hunit]
    rfl
  · rw [if_neg hunit] at h
    exact absurd h.symm (Option.some_ne_none v)

theorem vertex_eq (hv : v < g.blocks.length) : g.vertex v = ⟨g.unit, g.blocks[v]⟩ := by
  rw [vertex, List.getD_eq_getElem]

theorem vertex_mem_vertices (hv : v < g.size) : g.vertex v ∈ g.vertices := by
  rw [vertex_eq hv]
  exact List.mem_map_of_mem (List.getElem_mem hv)

theorem unit_of_mem_targets (h : t ∈ g.targets) : t.unit = g.unit := by
  obtain ⟨block, -, rfl⟩ := List.mem_map.1 (List.mem_filter.1 h).1
  rfl

namespace Sound

theorem root_lt (hg : g.Sound) : g.root < g.size := (List.getElem?_eq_some_iff.1 hg.root_eq).1

theorem vertex_root (hg : g.Sound) : g.vertex g.root = .root g.unit := by
  rw [vertex, List.getD_eq_getElem?_getD, hg.root_eq]
  rfl

theorem vertex_inj (hg : g.Sound) (hu : u < g.size) (hv : v < g.size) (h : g.vertex u = g.vertex v) : u = v := by
  rw [vertex_eq hu, vertex_eq hv] at h
  exact (List.Nodup.getElem_inj_iff hg.nodup).1 (congrArg Target.block h)

theorem position?_vertex (hg : g.Sound) (hv : v < g.size) : g.position? (g.vertex v) = some v := by
  have hcontains : (g.position? (g.vertex v)).isSome = true := by
    rw [vertex_eq hv, position?, if_pos rfl, List.isSome_idxOf?]
    exact List.getElem_mem hv
  obtain ⟨u, hu⟩ := Option.isSome_iff_exists.1 hcontains
  obtain ⟨hlt, heq⟩ := vertex_of_position? hu
  rw [hu, hg.vertex_inj hlt hv heq]

theorem isRoot_vertex (hg : g.Sound) (hv : v < g.size) : (g.vertex v).isRoot = true ↔ v = g.root := by
  obtain ⟨hroot, hblock⟩ := List.getElem?_eq_some_iff.1 hg.root_eq
  rw [Target.isRoot, beq_iff_eq, vertex_eq hv, ← hblock]
  exact List.Nodup.getElem_inj_iff hg.nodup

/-- Targets are the vertices other than the root. -/
theorem mem_targets (hg : g.Sound) : t ∈ g.targets ↔ ∃ v, g.position? t = some v ∧ v ≠ g.root := by
  rw [targets, List.mem_filter, Bool.not_eq_true', ← Bool.not_eq_true]
  constructor
  · rintro ⟨hmem, hroot⟩
    obtain ⟨block, hblock, rfl⟩ := List.mem_map.1 hmem
    obtain ⟨v, hv⟩ := Option.isSome_iff_exists.1 (List.isSome_idxOf?.2 hblock)
    have hpos : g.position? ⟨g.unit, block⟩ = some v := by rw [position?, if_pos rfl, hv]
    obtain ⟨hlt, heq⟩ := vertex_of_position? hpos
    exact ⟨v, hpos, fun h => hroot (heq ▸ (hg.isRoot_vertex hlt).2 h)⟩
  · rintro ⟨v, hpos, hne⟩
    obtain ⟨hlt, rfl⟩ := vertex_of_position? hpos
    exact ⟨vertex_mem_vertices hlt, fun h => hne ((hg.isRoot_vertex hlt).1 h)⟩

/-- Direct dependents are the ends of edges, the vertex itself apart. -/
theorem mem_children (hg : g.Sound) : x ∈ g.children v ↔ x ≠ v ∧ (v, x) ∈ g.edges := by
  show x ∈ (List.range g.size).filter (fun w => w != v && (outgoing g.edges v).contains w) ↔ _
  rw [List.mem_filter, List.mem_range, Bool.and_eq_true, bne_iff_ne, List.contains_iff_mem, mem_outgoing]
  constructor
  · rintro ⟨-, h⟩
    exact h
  · rintro ⟨hne, hedge⟩
    exact ⟨(hg.edge_lt v x hedge).2, hne, hedge⟩

end Sound

end CoverSearch.Graph
