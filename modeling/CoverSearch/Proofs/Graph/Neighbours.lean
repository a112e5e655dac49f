import CoverSearch.Proofs.Graph.Parents

/-!
# Direct dependents and parents

Dependents are read off the edges that start at a vertex, parents off those that end there. Both leave the vertex itself
out and list every other vertex once, however often its edge is repeated, so they agree on any two vertices. A vertex is
at most one edge further from the root than each of its parents, and exactly one edge further than the parent before it
on its path. So the distances of the parents give that of the vertex.

* `Graph.IsDependents` : dependents by their positions; `Graph.exists_dependents` : those of every vertex;
* `Graph.distance_le_of_mem_links` : an edge leads at most one further from the root;
* `Graph.exists_nearest_parent` : every vertex other than the root has a parent that is one edge nearer;
* `Graph.exists_min?_distances` : its distance by those of its parents;
* `neighbours_dual` : dependents, parents and distances of all vertices of a record.
-/

namespace CoverSearch

variable {r : Record} {g : Graph} {edges : List (Nat × Nat)} {u v m n : Nat} {us vs : List Nat}

namespace Record

/-! ## Targets by their positions -/

theorem mem_map_target (hnodup : r.nodes.Nodup) (hus : ∀ x ∈ us, x < r.nodes.length) (hu : u < r.nodes.length) :
    r.target u ∈ us.map r.target ↔ u ∈ us := by
  refine ⟨fun hmem => ?_, List.mem_map_of_mem⟩
  obtain ⟨x, hx, heq⟩ := List.mem_map.1 hmem
  rwa [← target_inj hnodup (hus x hx) hu heq]

theorem nodup_map_target (hnodup : r.nodes.Nodup) (hus : ∀ x ∈ us, x < r.nodes.length)
    (hascending : us.Pairwise (· < ·)) : (us.map r.target).Nodup :=
  List.Nodup.map_on (fun x hx y hy => target_inj hnodup (hus x hx) (hus y hy)) (hascending.imp Nat.ne_of_lt)

end Record

namespace Graph

/-! ## Dependents -/

/-- The positions of the direct dependents of a vertex, in declaration order. -/
structure IsDependents (edges : List (Nat × Nat)) (u : Nat) (vs : List Nat) : Prop where
  ascending : vs.Pairwise (· < ·)
  mem_iff : ∀ v, v ∈ vs ↔ v ≠ u ∧ (u, v) ∈ edges

theorem exists_dependents (h : ofRecord r = .ok g) (hu : u < r.nodes.length) :
    ∃ vs, IsDependents r.links u vs ∧ g.dependents (r.target u) = .ok (vs.map r.target) := by
  have hsound := sound_of_ofRecord h
  have hsize : g.size = r.nodes.length := congrArg List.length (ofRecord_eq_ok h).2.2.2.2.2.1
  refine ⟨g.children u, ⟨List.pairwise_lt_range.filter _, fun v => ?_⟩, ?_⟩
  · rw [hsound.mem_children, edges_eq_links h, List.mem_eraseDups]
  · rw [← vertex_eq_target h, dependents, locate, hsound.position?_vertex (hsize ▸ hu)]
    rfl

/-- The independent targets are the dependents of the root. -/
theorem dependents_root (h : ofRecord r = .ok g) : g.dependents (.root r.unit) = .ok g.independentTargets := by
  have hsound := sound_of_ofRecord h
  obtain ⟨-, -, -, -, hunit, -⟩ := ofRecord_eq_ok h
  rw [← hunit, ← hsound.vertex_root, dependents, locate, hsound.position?_vertex hsound.root_lt]
  rfl

/-! ## Ends of edges -/

theorem snd_lt_of_mem_links (h : ofRecord r = .ok g) (hedge : (u, v) ∈ r.links) : v < r.nodes.length :=
  snd_lt_of_holds (ofRecord_eq_ok h).2.2.1 u v (List.mem_eraseDups.2 hedge)

theorem IsDependents.lt (h : ofRecord r = .ok g) (hvs : IsDependents r.links u vs) :
    ∀ x ∈ vs, x < r.nodes.length := fun x hx => snd_lt_of_mem_links h ((hvs.mem_iff x).1 hx).2

theorem IsParents.lt (h : ofRecord r = .ok g) (hus : IsParents r.links v us) :
    ∀ x ∈ us, x < r.nodes.length := fun x hx => fst_lt_of_mem_links h ((hus.mem_iff x).1 hx).2

/-- Both lists tell whether there is an edge between two different vertices. -/
theorem IsDependents.mem_iff_mem_parents (hvs : IsDependents edges u vs) (hus : IsParents edges v us) :
    v ∈ vs ↔ u ∈ us := by
  rw [hvs.mem_iff, hus.mem_iff, ne_comm]

/-! ## Distances -/

theorem exists_distance (h : ofRecord r = .ok g) (hv : v < r.nodes.length) : ∃ n, g.distance (r.target v) = .ok n := by
  obtain ⟨c, hc, rfl, -⟩ := exists_climb h hv
  exact ⟨_, (pathTo_of_mem h hc).2⟩

/-- The path to the start of an edge and the edge are a walk to its end. -/
theorem distance_le_of_mem_links (h : ofRecord r = .ok g) (hedge : (u, v) ∈ r.links)
    (hu : g.distance (r.target u) = .ok m) (hv : g.distance (r.target v) = .ok n) : n ≤ m + 1 := by
  obtain ⟨c, hc, rfl, -⟩ := exists_climb h (fst_lt_of_mem_links h hedge)
  obtain ⟨d, hd, rfl, -⟩ := exists_climb h (snd_lt_of_mem_links h hedge)
  obtain rfl := Except.ok.inj ((pathTo_of_mem h hc).2.symm.trans hu)
  obtain rfl := Except.ok.inj ((pathTo_of_mem h hd).2.symm.trans hv)
  have hle := (isFirstShortest_path h hd).length_le _ ((isFirstShortest_path h hc).isWalk.concat hedge)
  rw [List.length_append, List.length_singleton] at hle
  omega

/-- The predecessor on the path is a parent as near to the root as any. -/
theorem exists_nearest_parent (h : ofRecord r = .ok g) (hv : v < r.nodes.length) (hroot : v ≠ g.root) :
    ∃ u n, u ≠ v ∧ (u, v) ∈ r.links ∧ g.distance (r.target u) = .ok n ∧ g.distance (r.target v) = .ok (n + 1) := by
  obtain ⟨c, hc, rfl, -⟩ := exists_climb h hv
  obtain ⟨e, he, hpath, hne, hedge⟩ := exists_predecessor h hc hroot
  refine ⟨e.vertex, e.path.length - 1, hne, hedge, (pathTo_of_mem h he).2, ?_⟩
  rw [(pathTo_of_mem h hc).2, hpath, List.length_append, Climb.length_path]
  rfl

/-- The distance of a vertex is one more than the least of those of its parents. -/
theorem exists_min?_distances (h : ofRecord r = .ok g) (hv : v < r.nodes.length) (hroot : v ≠ g.root)
    (hus : IsParents r.links v us) : us ≠ [] ∧ ∃ ds n, (us.map r.target).mapM g.distance = .ok ds ∧
      ds.min? = some n ∧ g.distance (r.target v) = .ok (n + 1) := by
  have hdistances : ∀ p ∈ us.map r.target, ∃ n, g.distance p = .ok n :=
    List.forall_mem_map.2 fun u hu => exists_distance h (hus.lt h u hu)
  obtain ⟨ds, hds⟩ := exists_mapM_eq_ok.2 hdistances
  obtain ⟨u, n, hne, hedge, hu, hdistance⟩ := exists_nearest_parent h hv hroot
  have hmem : u ∈ us := (hus.mem_iff u).2 ⟨hne, hedge⟩
  refine ⟨List.ne_nil_of_mem hmem, ds, n, hds, List.min?_eq_some_iff.2 ⟨?_, fun m hm => ?_⟩, hdistance⟩
  · exact (mem_of_mapM_eq_ok hds).2 ⟨_, List.mem_map_of_mem hmem, hu⟩
  · obtain ⟨p, hp, hm⟩ := (mem_of_mapM_eq_ok hds).1 hm
    obtain ⟨x, hx, rfl⟩ := List.mem_map.1 hp
    have hle := distance_le_of_mem_links h ((hus.mem_iff x).1 hx).2 hm hdistance
    omega

end Graph

/-! ## Main statement -/

/-- Direct dependents and parents of the vertices of a record that has a graph: the other ends of the edges, in
declaration order and each once, so that one vertex is a parent of the other exactly if that is its dependent. The
independent targets are the dependents of the root. Every vertex other than the root has a parent, and is one edge
further from the root than the nearest of them. -/
theorem neighbours_dual (r : Record) (g : Graph) (h : Graph.ofRecord r = .ok g) :
    (∀ u < r.nodes.length, ∃ vs, Graph.IsDependents r.links u vs ∧
      g.dependents (r.target u) = .ok (vs.map r.target) ∧ (vs.map r.target).Nodup) ∧
    (∀ v < r.nodes.length, ∃ us, Graph.IsParents r.links v us ∧
      g.parents (r.target v) = .ok (us.map r.target) ∧ (us.map r.target).Nodup) ∧
    (∀ u < r.nodes.length, ∀ v < r.nodes.length, ∃ ts ps,
      g.dependents (r.target u) = .ok ts ∧ g.parents (r.target v) = .ok ps ∧
      (r.target v ∈ ts ↔ r.target u ∈ ps) ∧ (r.target u ∈ ps ↔ r.target u ≠ r.target v ∧ (u, v) ∈ r.links)) ∧
    g.dependents (.root r.unit) = .ok g.independentTargets ∧
    ∀ v < r.nodes.length, r.nodes[v]? ≠ some rootBlock → ∃ ps ds n, g.parents (r.target v) = .ok ps ∧ ps ≠ [] ∧
      ps.mapM g.distance = .ok ds ∧ ds.min? = some n ∧ g.distance (r.target v) = .ok (n + 1) := by
  have hnodup := (Graph.ofRecord_eq_ok h).1
  refine ⟨fun u hu => ?_, fun v hv => ?_, fun u hu v hv => ?_, Graph.dependents_root h, fun v hv hroot => ?_⟩
  · obtain ⟨vs, hvs, hdependents⟩ := Graph.exists_dependents h hu
    exact ⟨vs, hvs, hdependents, Record.nodup_map_target hnodup (hvs.lt h) hvs.ascending⟩
  · obtain ⟨us, hus, hparents⟩ := Graph.exists_parents h hv
    exact ⟨us, hus, hparents, Record.nodup_map_target hnodup (hus.lt h) hus.ascending⟩
  · obtain ⟨vs, hvs, hdependents⟩ := Graph.exists_dependents h hu
    obtain ⟨us, hus, hparents⟩ := Graph.exists_parents h hv
    have hne : r.target u ≠ r.target v ↔ u ≠ v := not_congr ⟨Record.target_inj hnodup hu hv, congrArg r.target⟩
    refine ⟨_, _, hdependents, hparents, ?_, ?_⟩ <;> rw [Record.mem_map_target hnodup (hus.lt h) hu]
    · rw [Record.mem_map_target hnodup (hvs.lt h) hv, hvs.mem_iff_mem_parents hus]
    · rw [hus.mem_iff, hne]
  · obtain ⟨us, hus, hparents⟩ := Graph.exists_parents h hv
    have hne : v ≠ g.root := by
      rintro rfl
      exact hroot (Graph.getElem?_of_idxOf? (Graph.ofRecord_eq_ok h).2.1)
    obtain ⟨hnonempty, ds, n, hds, hmin, hdistance⟩ := Graph.exists_min?_distances h hv hne hus
    exact ⟨_, ds, n, hparents, mt List.map_eq_nil_iff.1 hnonempty, hds, hmin, hdistance⟩

/-- Block 4 has an edge to itself, which counts neither among its dependents nor among its parents. Both parents of
block 5 are two edges from the root. -/
theorem neighbours_dual_crossedRecord : ∃ g vs us ds n, Graph.ofRecord crossedRecord = .ok g ∧
    4 < crossedRecord.nodes.length ∧ 5 < crossedRecord.nodes.length ∧ crossedRecord.nodes[5]? ≠ some rootBlock ∧
    Graph.IsDependents crossedRecord.links 4 vs ∧ vs.map crossedRecord.target = [⟨"f", 5⟩] ∧
    Graph.IsParents crossedRecord.links 5 us ∧ us.map crossedRecord.target = [⟨"f", 3⟩, ⟨"f", 4⟩] ∧
    (crossedRecord.target 5 ∈ vs.map crossedRecord.target ↔ crossedRecord.target 4 ∈ us.map crossedRecord.target) ∧
    (us.map crossedRecord.target).mapM g.distance = .ok ds ∧ ds = [2, 2] ∧ ds.min? = some n ∧
    g.distance (crossedRecord.target 5) = .ok (n + 1) := by
  have hrun : (do
      let g ← (Graph.ofRecord crossedRecord).toOption
      let ts ← (g.dependents (crossedRecord.target 4)).toOption
      let ps ← (g.parents (crossedRecord.target 5)).toOption
      let ds ← (ps.mapM g.distance).toOption
      return (ts, ps, ds)) = some ([⟨"f", 5⟩], [⟨"f", 3⟩, ⟨"f", 4⟩], [2, 2]) := by decide +kernel
  obtain ⟨g, hg, hrun⟩ := Option.bind_eq_some_iff.1 hrun
  obtain ⟨ts, hts, hrun⟩ := Option.bind_eq_some_iff.1 hrun
  obtain ⟨ps, hps, hrun⟩ := Option.bind_eq_some_iff.1 hrun
  obtain ⟨ds, hds, hrun⟩ := Option.bind_eq_some_iff.1 hrun
  obtain ⟨rfl, hrest⟩ := Prod.mk.inj (Option.some.inj hrun)
  obtain ⟨rfl, rfl⟩ := Prod.mk.inj hrest
  rw [toOption_eq_some] at hg hts hps hds
  obtain ⟨hdependents, hparents, hdual, -, hdistance⟩ := neighbours_dual crossedRecord g hg
  obtain ⟨vs, hvs, hvs', -⟩ := hdependents 4 (by decide)
  obtain ⟨us, hus, hus', -⟩ := hparents 5 (by decide)
  obtain ⟨ts', ps', hts', hps', hdual, -⟩ := hdual 4 (by decide) 5 (by decide)
  obtain ⟨ps'', ds', n, hps'', -, hds', hn, hdistance⟩ := hdistance 5 (by decide) (by decide)
  obtain rfl := Except.ok.inj (hvs'.symm.trans hts')
  obtain rfl := Except.ok.inj (hus'.symm.trans hps')
  obtain rfl := Except.ok.inj (hus'.symm.trans hps'')
  have hdependent := Except.ok.inj (hvs'.symm.trans hts)
  have hparent := Except.ok.inj (hus'.symm.trans hps)
  rw [hparent, hds] at hds'
  obtain rfl := Except.ok.inj hds'
  exact ⟨g, vs, us, _, n, hg, by decide, by decide, by decide, hvs, hdependent, hus, hparent, hdual, hparent ▸ hds, rfl,
    hn, hdistance⟩

end CoverSearch
