import CoverSearch.Fault
import CoverSearch.Graph.Breadth
import CoverSearch.Graph.Depth
import CoverSearch.Record

/-!
# Control dependence graphs

The graph of one code unit is built once from a record. Its vertices are the listed nodes in declaration order,
all of them reachable from the root sentinel.

* `Graph.ofRecord` : the graph, or the first reason against it;
* `Graph.climb`, `Graph.pathTo`, `Graph.distance` : the shortest path between root and target that breadth-first
  search finds;
* `Graph.dependents`, `Graph.allDependents`, `Graph.parents` : controlled and controlling targets, self loops left out;
* `Graph.approachLevel` : the number of hops to the nearest covered ancestor.

A target that is not a vertex makes the checked queries a `Fault.unknownTarget`.
-/

namespace CoverSearch

/-- The control dependence graph of a code unit. -/
structure Graph where
  unit : String
  /-- The blocks of the vertices, in declaration order. -/
  blocks : List UInt64
  /-- The edges between positions, each once, at its first place. -/
  edges : List (Nat × Nat)
  /-- The position of the root sentinel. -/
  root : Nat
  /-- For each position its climb: itself, its ancestors, the root last. -/
  climbs : List (List Nat)
  branches : UInt64
  assertions : UInt64

namespace Graph

/-! ## Construction -/

/-- The first element that occurs before. -/
def firstRepeat? [BEq α] (before : List α) : List α → Option α
  | [] => none
  | x :: xs => if before.contains x then some x else firstRepeat? (x :: before) xs

/-- The ends of the edges that start at `v`. -/
def outgoing (edges : List (Nat × Nat)) (v : Nat) : List Nat :=
  (edges.filter fun e => e.1 == v).map (·.2)

/-- The starts of the edges that end at `v`. -/
def incoming (edges : List (Nat × Nat)) (v : Nat) : List Nat :=
  (edges.filter fun e => e.2 == v).map (·.1)

/-- The climbs from all positions reachable from `start`, among `n` positions. -/
def reach (n : Nat) (edges : List (Nat × Nat)) (start : Nat) : List Climb :=
  breadthFirst (outgoing edges) ((List.range n).filter (· != start)) [⟨start, []⟩]

/-- The climb to each of `n` positions, unless one cannot be reached, which is then named. -/
def climbsFrom (n : Nat) (edges : List (Nat × Nat)) (root : Nat) : Except Nat (List (List Nat)) :=
  let found := reach n edges root
  (List.range n).mapM fun v =>
    match found.find? (·.vertex == v) with
    | some c => .ok c.toList
    | none => .error v

/-- The graph of a record, or the first reason against it: a repeated block, no root, an edge out of bounds, a vertex
out of reach. -/
def ofRecord (r : Record) : Except InputError Graph :=
  match firstRepeat? [] r.nodes with
  | some block => .error (.duplicateBlock r.unit block)
  | none =>
    match r.nodes.idxOf? rootBlock with
    | none => .error (.missingRoot r.unit)
    | some root =>
      let n := r.nodes.length
      match r.edges.find? fun e => n ≤ e.controller.toNat || n ≤ e.dependent.toNat with
      | some e => .error (.edgeOutOfBounds r.unit e.controller e.dependent n)
      | none =>
        let edges := (r.edges.map fun e => (e.controller.toNat, e.dependent.toNat)).eraseDups
        match climbsFrom n edges root with
        | .error v => .error (.unreachable r.unit (r.nodes.getD v 0))
        | .ok climbs =>
          .ok { unit := r.unit, blocks := r.nodes, edges, root, climbs,
                branches := r.branches, assertions := r.assertions }

/-! ## Vertices -/

/-- The number of vertices, root included. -/
def size (g : Graph) : Nat := g.blocks.length

/-- All vertices in declaration order. -/
def vertices (g : Graph) : List Target := g.blocks.map (⟨g.unit, ·⟩)

/-- The vertex at a position. -/
def vertex (g : Graph) (i : Nat) : Target := ⟨g.unit, g.blocks.getD i 0⟩

/-- All vertices except the root. -/
def targets (g : Graph) : List Target := g.vertices.filter (!·.isRoot)

/-- The position of a target. -/
def position? (g : Graph) (t : Target) : Option Nat :=
  if t.unit = g.unit then g.blocks.idxOf? t.block else none

def contains (g : Graph) (t : Target) : Bool := (g.position? t).isSome

theorem contains_of_mem_targets (g : Graph) {t : Target} (h : t ∈ g.targets) : g.contains t = true := by
  obtain ⟨block, hb, rfl⟩ := List.mem_map.1 (List.mem_filter.1 h).1
  simp [contains, position?, hb]

/-- The position of a target that has to be a vertex. -/
def locate (g : Graph) (t : Target) : Except Fault Nat :=
  match g.position? t with
  | some i => .ok i
  | none => .error (.unknownTarget t g.unit)

/-! ## Paths -/

/-- The target, its ancestors on the cached path, and the root last; nothing for a target of another graph. -/
def climb (g : Graph) (t : Target) : List Target :=
  match g.position? t with
  | some i => (g.climbs.getD i []).map g.vertex
  | none => []

/-- The cached path from the root to a target, both included. -/
def pathTo (g : Graph) (t : Target) : Except Fault (List Target) := do
  let _ ← g.locate t
  return (g.climb t).reverse

/-- The number of edges of the cached path. -/
def distance (g : Graph) (t : Target) : Except Fault Nat := do
  return (← g.pathTo t).length - 1

/-- The number of hops from a target up its path to the nearest covered vertex, or the length of the path if none
is covered. -/
def approachLevel (g : Graph) (t : Target) (covered : Target → Bool) : Except Fault Nat := do
  return (← g.pathTo t).reverse.findIdx covered

/-- The mean distance of the vertices from the root. -/
def averageDepth (g : Graph) : Float :=
  Float.ofNat (total (g.climbs.map fun c => c.length - 1)) / Float.ofNat g.size

/-! ## Dependence -/

/-- The positions that `v` controls directly, in declaration order. -/
def children (g : Graph) (v : Nat) : List Nat :=
  let out := outgoing g.edges v
  (List.range g.size).filter fun w => w != v && out.contains w

/-- Targets that are controlled by the root alone. -/
def independentTargets (g : Graph) : List Target := (g.children g.root).map g.vertex

/-- The direct dependents of a target. -/
def dependents (g : Graph) (t : Target) : Except Fault (List Target) := do
  return (g.children (← g.locate t)).map g.vertex

/-- The direct controllers of a target. -/
def parents (g : Graph) (t : Target) : Except Fault (List Target) := do
  let v ← g.locate t
  let starts := incoming g.edges v
  return ((List.range g.size).filter fun u => u != v && starts.contains u).map g.vertex

/-- All vertices other than the target that one or more edges lead to from it. The search does not take its start for
seen, so a cycle may bring it up again; it is left out at the end. -/
def allDependents (g : Graph) (t : Target) : Except Fault (List Target) := do
  let v ← g.locate t
  let unseen := depthFirst g.children (List.range g.size) [v]
  return ((List.range g.size).filter fun u => u != v && !unseen.contains u).map g.vertex

end Graph

end CoverSearch
