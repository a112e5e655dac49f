/-!
# Breadth-first search

Vertices are positions in a list. The search keeps the vertices it has not seen, in order, and a queue of the
vertices it has seen but not yet followed, each with its ancestors, nearest first. Every step takes one entry off
the queue and moves the unseen successors of its vertex behind the others, so `unseen.length + queue.length`
shrinks by one.

* `Climb` : a vertex and its ancestors;
* `breadthFirst` : all vertices reached, in the order they are seen, each with the climb of its first discoverer.
-/

namespace CoverSearch

/-- A vertex and the vertices that lead to it, nearest first. -/
structure Climb where
  vertex : Nat
  above : List Nat
deriving DecidableEq

namespace Climb

/-- The vertex and its ancestors, the start of the search last. -/
def toList (c : Climb) : List Nat := c.vertex :: c.above

/-- One edge further. -/
def extend (c : Climb) (w : Nat) : Climb := ⟨w, c.toList⟩

end Climb

/-- The unseen vertices among `out`, in the order of `unseen`. -/
def fresh (out unseen : List Nat) : List Nat := unseen.filter fun w => out.contains w

/-- The unseen vertices that are not among `out`. -/
def remaining (out unseen : List Nat) : List Nat := unseen.filter fun w => !out.contains w

theorem length_fresh_add_remaining (out unseen : List Nat) :
    (fresh out unseen).length + (remaining out unseen).length = unseen.length := by
  induction unseen with
  | nil => rfl
  | cons x xs ih =>
    simp only [fresh, remaining, List.filter_cons] at ih ⊢
    cases out.contains x <;> simp only [Bool.not_true, Bool.not_false, if_true, List.length_cons] <;> grind

/-- The climbs to all vertices that can be reached from the queue through `unseen` vertices. -/
def breadthFirst (next : Nat → List Nat) (unseen : List Nat) : List Climb → List Climb
  | [] => []
  | c :: queue =>
    let out := next c.vertex
    c :: breadthFirst next (remaining out unseen) (queue ++ (fresh out unseen).map c.extend)
termination_by queue => unseen.length + queue.length
decreasing_by
  have := length_fresh_add_remaining (next c.vertex) unseen
  simp only [List.length_append, List.length_map, List.length_cons]
  omega

end CoverSearch
