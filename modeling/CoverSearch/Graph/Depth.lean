import CoverSearch.Graph.Breadth

/-!
# Depth-first search

Here only what is seen in the end matters. The search keeps the vertices it has not seen, and a stack of those to
follow, the next one first. Every step takes one vertex off the stack and puts its unseen successors on top, the last of
them uppermost.

* `depthFirst` : the vertices that stay unseen.
-/

namespace CoverSearch

/-- The vertices of `unseen` that cannot be reached from the stack. A vertex of the stack may itself be unseen; then an
edge that leads back to it puts it on the stack once more. -/
def depthFirst (next : Nat → List Nat) (unseen : List Nat) : List Nat → List Nat
  | [] => unseen
  | v :: stack =>
    let out := next v
    depthFirst next (remaining out unseen) ((fresh out unseen).reverse ++ stack)
termination_by stack => unseen.length + stack.length
decreasing_by
  have := length_fresh_add_remaining (next v) unseen
  simp only [List.length_append, List.length_reverse, List.length_cons]
  omega

end CoverSearch
