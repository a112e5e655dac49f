import CoverSearch.Json.Writer
import CoverSearch.Record

/-!
# Writing analysis records

* `Record.toJson` : a self-describing record, its unit under either name, its edges with or without weights;
* `Record.toLog` : a log entry that embeds the graph of the record;
* `LogRecord.toJson` : a log entry.
-/

namespace CoverSearch

/-- An edge as a pair, or as a triple with a weight. -/
def Edge.toJson (e : Edge) : Option UInt64 → Json
  | none => .array [.ofWord e.controller, .ofWord e.dependent]
  | some weight => .array [.ofWord e.controller, .ofWord e.dependent, .ofWord weight]

namespace Shape

def nodesJson (s : Shape) : Json := .array (s.nodes.map .ofWord)

/-- The edges, each with the weight given for its place, if any. -/
def edgesJson (s : Shape) (weight : Nat → Option UInt64) : Json :=
  .array (s.edges.zipIdx.map fun (e, i) => e.toJson (weight i))

def toJson (s : Shape) (weight : Nat → Option UInt64) : Json :=
  .ofFields [("nodes", s.nodesJson), ("edges", s.edgesJson weight)]

end Shape

/-- A self-describing record, its unit under the given name. -/
def Record.toJson (r : Record) (unitName : String) (weight : Nat → Option UInt64) : Json :=
  .ofFields [(unitName, .ofString r.unit), ("nodes", r.nodesJson), ("edges", r.edgesJson weight),
    ("branches", .ofWord r.branches), ("assertions", .ofWord r.assertions)]

/-- The log entry of a record, with the graph as an embedded text. -/
def Record.toLog (r : Record) (weight : Nat → Option UInt64) : LogRecord :=
  { unit := r.unit
    graph := (r.toShape.toJson weight).render
    branches := r.branches
    assertions := r.assertions }

def LogRecord.toJson (r : LogRecord) : Json :=
  .ofFields [("global_id", .ofString r.unit), ("cdg", .ofString r.graph), ("branches", .ofWord r.branches),
    ("assertions", .ofWord r.assertions)]

end CoverSearch
