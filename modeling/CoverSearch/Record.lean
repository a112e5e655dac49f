/-!
# Analysis records

* `Edge` : a control dependence between two positions of a node list;
* `Record` : nodes, edges and counters of one code unit;
* `LogRecord` : the form in analysis logs, with the graph as an embedded text.
-/

namespace CoverSearch

/-- A control dependence: the node at `dependent` runs under control of the node at `controller`. -/
structure Edge where
  controller : UInt64
  dependent : UInt64
deriving DecidableEq

/-- The nodes of a graph by their blocks, and its edges by node positions. -/
structure Shape where
  nodes : List UInt64
  edges : List Edge := []
deriving DecidableEq

/-- The control dependences of one code unit, with counters that are only reported. -/
structure Record extends Shape where
  unit : String
  branches : UInt64 := 0
  assertions : UInt64 := 0
deriving DecidableEq

/-- An entry of an analysis log, whose graph is itself a JSON text. -/
structure LogRecord where
  unit : String
  graph : String
  branches : UInt64 := 0
  assertions : UInt64 := 0
deriving DecidableEq

end CoverSearch
