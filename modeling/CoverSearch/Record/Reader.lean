import CoverSearch.Fault
import CoverSearch.Json.Fields
import CoverSearch.Json.Reader
import CoverSearch.Record

/-!
# Reading analysis records

* `Record.parse` : a self-describing record;
* `Record.parseShape` : a bare graph, for a unit named elsewhere;
* `LogRecord.parse`, `LogRecord.toRecord` : a log entry, and the record it embeds.

Texts that are not JSON of the right shape are `InputError.malformed`.
-/

namespace CoverSearch

/-- Arrays and objects of a text that may be open at once where values are read in full. -/
def maxOpen : Nat := 127

/-- Two positions, and possibly a third value that is read but not used. The record, its edge list and the edge itself
are open around that value. -/
def Edge.ofJson? : Json → Option Edge
  | .array [a, b] => do return ⟨← a.word?, ← b.word?⟩
  | .array [a, b, weight] =>
    if Json.decodable (maxOpen - 3) weight then do return ⟨← a.word?, ← b.word?⟩ else none
  | _ => none

namespace Record

def fieldNames : List (List String) :=
  [["code_unit_id", "global_id"], ["nodes"], ["edges"], ["branches"], ["assertions"]]

def ofJson? (v : Json) : Option Record := do
  match ← v.fields? fieldNames with
  | [unit, nodes, edges, branches, assertions] =>
    return {
      unit := ← Json.required Json.text? unit
      nodes := ← Json.required (Json.items? Json.word?) nodes
      edges := ← Json.optional (Json.items? Edge.ofJson?) [] edges
      branches := ← Json.optional Json.word? 0 branches
      assertions := ← Json.optional Json.word? 0 assertions }
  | _ => none

/-- The record in a self-describing text. -/
def parse (text : String) : Except InputError Record :=
  match Json.parse? text >>= ofJson? with
  | some r => .ok r
  | none => .error (.malformed "cdg input")

end Record

namespace Shape

def fieldNames : List (List String) := [["nodes"], ["edges"]]

def ofJson? (v : Json) : Option Shape := do
  match ← v.fields? fieldNames with
  | [nodes, edges] =>
    return {
      nodes := ← Json.required (Json.items? Json.word?) nodes
      edges := ← Json.optional (Json.items? Edge.ofJson?) [] edges }
  | _ => none

end Shape

/-- The record of `unit` whose graph is given by a text of its own. -/
def Record.parseShape (unit text : String) : Except InputError Record :=
  match Json.parse? text >>= Shape.ofJson? with
  | some s => .ok { s with unit }
  | none => .error (.malformed unit)

namespace LogRecord

def fieldNames : List (List String) := [["global_id"], ["cdg"], ["branches"], ["assertions"]]

def ofJson? (v : Json) : Option LogRecord := do
  match ← v.fields? fieldNames with
  | [unit, graph, branches, assertions] =>
    return {
      unit := ← Json.required Json.text? unit
      graph := ← Json.required Json.text? graph
      branches := ← Json.optional Json.word? 0 branches
      assertions := ← Json.optional Json.word? 0 assertions }
  | _ => none

/-- The log entry in a text. -/
def parse (text : String) : Except InputError LogRecord :=
  match Json.parse? text >>= ofJson? with
  | some r => .ok r
  | none => .error (.malformed "mir record")

/-- The record that a log entry embeds, with the counters of the entry. -/
def toRecord (r : LogRecord) : Except InputError Record := do
  return { ← Record.parseShape r.unit r.graph with branches := r.branches, assertions := r.assertions }

end LogRecord

end CoverSearch
