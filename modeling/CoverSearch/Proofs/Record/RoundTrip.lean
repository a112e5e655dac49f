import CoverSearch.Proofs.Json.Values
import CoverSearch.Record.Reader
import CoverSearch.Record.Writer

/-!
# Records are read as they were written

A record can be written as an object of its own, and as an entry of a log with its graph as a text inside a string.
Both readers give it back, with every character of its unit and every word of its graph and counters; weights of edges
make no difference.

* `Edge.ofJson?_toJson` : an edge as a pair or as a triple;
* `Record.parse_toJson`, `LogRecord.parse_toJson`, `Record.parseShape_render` : the three readers;
* `Record.parse_written` : both forms of a record.
-/

namespace CoverSearch

open Json

/-! ## Graphs -/

theorem Edge.writable_toJson (e : Edge) (weight : Option UInt64) : (e.toJson weight).Writable := by
  cases weight <;> simp [Edge.toJson, writable_array]

/-- A weight is read and left out. -/
theorem Edge.ofJson?_toJson (e : Edge) (weight : Option UInt64) : Edge.ofJson? (e.toJson weight) = some e := by
  cases weight <;> simp [Edge.toJson, Edge.ofJson?]

namespace Shape

@[simp] theorem writable_nodesJson (s : Shape) : s.nodesJson.Writable := by
  rw [nodesJson, writable_array, List.forall_mem_map]
  exact fun n _ => writable_ofWord n

@[simp] theorem writable_edgesJson (s : Shape) (weight : Nat → Option UInt64) : (s.edgesJson weight).Writable := by
  rw [edgesJson, writable_array, List.forall_mem_map]
  exact fun (e, i) _ => e.writable_toJson (weight i)

@[simp] theorem items?_nodesJson (s : Shape) : items? word? s.nodesJson = some s.nodes := by
  rw [nodesJson, items?_array_map fun n _ => word?_ofWord n, List.map_id']

@[simp] theorem items?_edgesJson (s : Shape) (weight : Nat → Option UInt64) :
    items? Edge.ofJson? (s.edgesJson weight) = some s.edges := by
  rw [edgesJson, items?_array_map (k := Prod.fst) fun (e, i) _ => e.ofJson?_toJson (weight i), List.zipIdx_map_fst]

theorem writable_toJson (s : Shape) (weight : Nat → Option UInt64) : (s.toJson weight).Writable := by
  apply writable_ofFields
  simp

theorem ofJson?_toJson (s : Shape) (weight : Nat → Option UInt64) : Shape.ofJson? (s.toJson weight) = some s := by
  have hfields : (s.toJson weight).fields? fieldNames = some [some s.nodesJson, some (s.edgesJson weight)] := by
    rw [toJson, fields?_ofFields]
    simp [fieldNames, field?]
  simp [ofJson?, hfields, required, Json.optional]

end Shape

theorem Record.parseShape_render (s : Shape) (weight : Nat → Option UInt64) (unit : String) :
    Record.parseShape unit (s.toJson weight).render = .ok { s with unit } := by
  rw [parseShape, parse?_render (s.writable_toJson weight), Option.bind_eq_bind, Option.bind_some, s.ofJson?_toJson]

/-! ## Self-describing records -/

namespace Record

variable {name : String}

theorem writable_toJson (r : Record) (name : String) (weight : Nat → Option UInt64) :
    (r.toJson name weight).Writable := by
  apply writable_ofFields
  simp

theorem ofJson?_toJson (r : Record) (hname : name ∈ ["code_unit_id", "global_id"]) (weight : Nat → Option UInt64) :
    Record.ofJson? (r.toJson name weight) = some r := by
  have hfields : (r.toJson name weight).fields? fieldNames = some [some (.ofString r.unit), some r.nodesJson,
      some (r.edgesJson weight), some (.ofWord r.branches), some (.ofWord r.assertions)] := by
    rw [toJson, fields?_ofFields]
    simp only [List.mem_cons, List.not_mem_nil, or_false] at hname
    rcases hname with rfl | rfl <;> simp [fieldNames, field?]
  simp [ofJson?, hfields, required, Json.optional]

theorem parse_toJson (r : Record) (hname : name ∈ ["code_unit_id", "global_id"]) (weight : Nat → Option UInt64) :
    Record.parse (r.toJson name weight).render = .ok r := by
  rw [parse, parse?_render (r.writable_toJson name weight), Option.bind_eq_bind, Option.bind_some,
    r.ofJson?_toJson hname]

end Record

/-! ## Log entries -/

namespace LogRecord

theorem writable_toJson (r : LogRecord) : r.toJson.Writable := by
  apply writable_ofFields
  simp

theorem ofJson?_toJson (r : LogRecord) : LogRecord.ofJson? r.toJson = some r := by
  have hfields : r.toJson.fields? fieldNames = some [some (.ofString r.unit), some (.ofString r.graph),
      some (.ofWord r.branches), some (.ofWord r.assertions)] := by
    rw [toJson, fields?_ofFields]
    simp [fieldNames, field?]
  simp [ofJson?, hfields, required, Json.optional]

/-- Any log entry is read as it was written, whether or not its text is a graph. -/
theorem parse_toJson (r : LogRecord) : LogRecord.parse r.toJson.render = .ok r := by
  rw [parse, parse?_render r.writable_toJson, Option.bind_eq_bind, Option.bind_some, r.ofJson?_toJson]

/-- The graph of a log entry has no counters; those of the entry are put back. -/
theorem toRecord_toLog (r : Record) (weight : Nat → Option UInt64) : (r.toLog weight).toRecord = .ok r := by
  show Record.parseShape r.unit (r.toShape.toJson weight).render >>= _ = _
  rw [Record.parseShape_render]
  rfl

end LogRecord

/-- Both input formats give a record back as it was: on its own under either name of its unit, and embedded in a log
entry, each with any choice of weights. -/
theorem Record.parse_written (r : Record) (weight : Nat → Option UInt64) :
    Record.parse (r.toJson "code_unit_id" weight).render = .ok r ∧
      Record.parse (r.toJson "global_id" weight).render = .ok r ∧
      (LogRecord.parse (r.toLog weight).toJson.render >>= LogRecord.toRecord) = .ok r := by
  refine ⟨r.parse_toJson (by decide) weight, r.parse_toJson (by decide) weight, ?_⟩
  rw [LogRecord.parse_toJson]
  exact LogRecord.toRecord_toLog r weight

end CoverSearch
