import CoverSearch.Graph

/-!
# Graphviz drawings

`Graph.draw` writes one line for each vertex, labelled with its target, and one for each edge.
-/

namespace CoverSearch.Graph

/-- A label in quotes: quotes and backslashes escaped, lines left-justified. -/
def labelChars : List Char → List Char
  | [] => []
  | '"' :: rest => '\\' :: '"' :: labelChars rest
  | '\\' :: rest => '\\' :: '\\' :: labelChars rest
  | '\n' :: rest => '\\' :: 'l' :: labelChars rest
  | c :: rest => c :: labelChars rest

/-- The line of a vertex. -/
def vertexLine (i : Nat) (t : Target) : String :=
  "    " ++ toString i ++ " [ label = \"" ++ String.ofList (labelChars t.render.toList) ++ "\" ]\n"

/-- The line of an edge. -/
def edgeLine (e : Nat × Nat) : String := "    " ++ toString e.1 ++ " -> " ++ toString e.2 ++ " [ ]\n"

/-- The graph in the language of Graphviz. -/
def draw (g : Graph) : String :=
  "digraph \x7b\n" ++ String.join (g.vertices.zipIdx.map fun (t, i) => vertexLine i t) ++
    String.join (g.edges.map edgeLine) ++ "\x7d\n"

end CoverSearch.Graph
