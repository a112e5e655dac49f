import CoverSearch.Proofs.Graph.Accept
import Mathlib.Order.Bounds.Basic

/-!
# Cached paths

The path to a vertex is the climb with which breadth-first search found it, read from the root. As no walk from the root
is earlier in shortlex order, it is a shortest walk, and of the shortest ones the first when vertices are compared by
their positions. A part of it up to some vertex is what was found for that vertex.

* `IsFirstShortest` : the first of the shortest walks;
* `Graph.exists_climb` : where a path comes from;
* `pathTo_isFirstShortest` : the path to every vertex of a record.
-/

namespace CoverSearch

variable {r : Record} {g : Graph} {edges : List (Nat × Nat)} {u v : Nat} {w : List Nat}

/-- No walk between its ends is shorter, and the others of its length come later in lexicographic order. -/
structure IsFirstShortest (edges : List (Nat × Nat)) (u v : Nat) (w : List Nat) : Prop where
  isWalk : IsWalk edges u v w
  length_le : ∀ x, IsWalk edges u v x → w.length ≤ x.length
  lex : ∀ x, IsWalk edges u v x → x.length = w.length → x ≠ w → List.Lex (· < ·) w x

theorem isFirstShortest_of_noLater (hw : IsWalk edges u v w) (hle : ∀ x, IsWalk edges u v x → NoLater w x) :
    IsFirstShortest edges u v w := by
  refine ⟨hw, fun x hx => ?_, fun x hx hlen hne => ?_⟩
  · rcases hle x hx with rfl | h
    · exact Nat.le_refl _
    · rcases earlier_iff.1 h with h | ⟨h, -⟩ <;> omega
  · rcases earlier_iff.1 ((hle x hx).resolve_left hne.symm) with h | ⟨-, h⟩
    · omega
    · exact h

/-- The target at a position. -/
def Record.target (r : Record) (i : Nat) : Target := ⟨r.unit, r.nodes.getD i 0⟩

namespace Graph

theorem vertex_eq_target (h : ofRecord r = .ok g) : g.vertex = r.target := by
  obtain ⟨-, -, -, -, hunit, hblocks, -⟩ := ofRecord_eq_ok h
  funext i
  rw [vertex, Record.target, hunit, hblocks]

theorem edges_eq_links (h : ofRecord r = .ok g) : g.edges = r.links.eraseDups := (ofRecord_eq_ok h).2.2.2.2.2.2

theorem discovers_ofRecord (h : ofRecord r = .ok g) :
    ∃ unseen, Discovers g.edges r.nodes.length g.root (reach r.nodes.length g.edges g.root) unseen [] :=
  discovers_reach g.edges (List.getElem?_eq_some_iff.1 (getElem?_of_idxOf? (ofRecord_eq_ok h).2.1)).1

/-- A path is what breadth-first search from the root has found. -/
theorem exists_climb (h : ofRecord r = .ok g) (hv : v < r.nodes.length) :
    ∃ c ∈ reach r.nodes.length g.edges g.root, c.vertex = v ∧ g.pathTo (r.target v) = .ok (c.path.map r.target) := by
  obtain ⟨-, -, -, hclimbs, -, hblocks, -⟩ := ofRecord_eq_ok h
  obtain ⟨c, hc, hcv, hl⟩ := exists_mem_reach hclimbs hv
  have hpos := (sound_of_ofRecord h).position?_vertex (show v < g.size by rw [size, hblocks]; exact hv)
  refine ⟨c, hc, hcv, ?_⟩
  rw [← vertex_eq_target h, pathTo, locate, hpos]
  show Except.ok (g.climb (g.vertex v)).reverse = _
  have hclimb : g.climb (g.vertex v) = c.toList.map g.vertex := by
    simp only [climb, hpos, List.getD_eq_getElem?_getD, hl, Option.getD_some]
  rw [hclimb, Climb.path, List.map_reverse]

theorem distance_eq {path : List Target} {t : Target} (h : g.pathTo t = .ok path) :
    g.distance t = .ok (path.length - 1) := by
  rw [distance, h]
  rfl

theorem isFirstShortest_path (h : ofRecord r = .ok g) {c : Climb} (hc : c ∈ reach r.nodes.length g.edges g.root) :
    IsFirstShortest r.links g.root c.vertex c.path := by
  have hedges := edges_eq_links h
  have hinside : ∀ a b, (a, b) ∈ g.edges → b < r.nodes.length := hedges ▸ snd_lt_of_holds (ofRecord_eq_ok h).2.2.1
  obtain ⟨unseen, hfound⟩ := discovers_ofRecord h
  refine isFirstShortest_of_noLater (isWalk_eraseDups.1 (hedges ▸ isWalk_of_mem_reach hc)) fun x hx => ?_
  obtain ⟨d, hd, hdv, hle⟩ := hfound.exists_noLater hinside (hedges ▸ isWalk_eraseDups.2 hx)
  rwa [hfound.eq_of_vertex hd hc hdv] at hle

end Graph

theorem Record.target_inj (hnodup : r.nodes.Nodup) (hu : u < r.nodes.length) (hv : v < r.nodes.length)
    (h : r.target u = r.target v) : u = v := by
  have hblock := congrArg Target.block h
  simp only [target, List.getD_eq_getElem _ _ hu, List.getD_eq_getElem _ _ hv] at hblock
  exact (List.Nodup.getElem_inj_iff hnodup).1 hblock

/-! ## Main statement -/

/-- Every vertex of a record that has a graph has a path from the root along the edges of the record: without repeated
vertices, of minimal length, and lexicographically first among the shortest walks. Its length is the distance, and the
path to a vertex on it is its part up to there. -/
theorem pathTo_isFirstShortest (r : Record) (g : Graph) (h : Graph.ofRecord r = .ok g) (v : Nat)
    (hv : v < r.nodes.length) : ∃ root w,
      r.nodes[root]? = some rootBlock ∧ IsFirstShortest r.links root v w ∧
      g.pathTo (r.target v) = .ok (w.map r.target) ∧ (w.map r.target).Nodup ∧
      (∃ d, g.distance (r.target v) = .ok d ∧ IsLeast {k | ∃ x, IsWalk r.links root v x ∧ x.length = k + 1} d) ∧
      ∀ t ∈ w.map r.target, ∃ p, g.pathTo t = .ok p ∧ p <+: w.map r.target ∧ p.getLast? = some t := by
  obtain ⟨unseen, hfound⟩ := Graph.discovers_ofRecord h
  obtain ⟨c, hc, rfl, hpath⟩ := Graph.exists_climb h hv
  have hfirst := Graph.isFirstShortest_path h hc
  refine ⟨g.root, c.path, Graph.getElem?_of_idxOf? (Graph.ofRecord_eq_ok h).2.1, hfirst, hpath, ?_, ?_, fun t ht => ?_⟩
  · have hlt : ∀ x ∈ c.path, x < r.nodes.length := by
      intro x hx
      obtain ⟨d, hd, rfl, -⟩ := hfound.suffix hc (List.mem_reverse.1 hx)
      exact hfound.vertex_lt hd
    exact List.Nodup.map_on
      (fun x hx y hy => Record.target_inj (Graph.ofRecord_eq_ok h).1 (hlt x hx) (hlt y hy))
      (List.nodup_reverse.2 (hfound.nodup hc))
  · refine ⟨_, Graph.distance_eq hpath, ⟨c.path, hfirst.isWalk, by simp⟩, ?_⟩
    rintro k ⟨x, hx, hlen⟩
    have hle := hfirst.length_le x hx
    rw [List.length_map]
    omega
  · obtain ⟨u, hu, rfl⟩ := List.mem_map.1 ht
    obtain ⟨d, hd, rfl, hsuffix⟩ := hfound.suffix hc (List.mem_reverse.1 hu)
    obtain ⟨d', hd', heq, hpath'⟩ := Graph.exists_climb h (hfound.vertex_lt hd)
    obtain rfl := hfound.eq_of_vertex hd' hd heq
    refine ⟨_, hpath', (List.reverse_prefix.2 hsuffix).map r.target, ?_⟩
    rw [List.getLast?_map, (Graph.isFirstShortest_path h hd').isWalk.getLast?_eq]
    rfl

/-- Two shortest walks lead to block 5, between cycles. The parent listed first is on the later one. -/
def crossedRecord : Record :=
  { unit := "f", nodes := [rootBlock, 1, 2, 3, 4, 5],
    edges := [⟨0, 2⟩, ⟨0, 1⟩, ⟨2, 3⟩, ⟨1, 4⟩, ⟨3, 5⟩, ⟨4, 5⟩, ⟨4, 4⟩, ⟨5, 0⟩, ⟨0, 1⟩] }

theorem pathTo_isFirstShortest_crossedRecord : ∃ g root w, Graph.ofRecord crossedRecord = .ok g ∧
    5 < crossedRecord.nodes.length ∧ IsFirstShortest crossedRecord.links root 5 w ∧
    w.map crossedRecord.target = [.root "f", ⟨"f", 1⟩, ⟨"f", 4⟩, ⟨"f", 5⟩] := by
  have hrun : (do
      let g ← (Graph.ofRecord crossedRecord).toOption
      (g.pathTo (crossedRecord.target 5)).toOption) = some [.root "f", ⟨"f", 1⟩, ⟨"f", 4⟩, ⟨"f", 5⟩] := by
    decide +kernel
  obtain ⟨g, hg, hrun⟩ := Option.bind_eq_some_iff.1 hrun
  rw [toOption_eq_some] at hg hrun
  obtain ⟨root, w, -, hfirst, hpath, -⟩ := pathTo_isFirstShortest crossedRecord g hg 5 (by decide)
  exact ⟨g, root, w, hg, by decide, hfirst, Except.ok.inj (hpath.symm.trans hrun)⟩

end CoverSearch
