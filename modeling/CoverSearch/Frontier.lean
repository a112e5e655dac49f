import CoverSearch.Analysis

/-!
# The frontier of ranked objectives

Objectives are known by their positions. The frontier starts with the roots; when an active objective is covered it
leaves, and its unvisited dependents enter, or are themselves passed over if they are covered too. No objective
is visited twice.

* `Frontier.initial` : the roots are visited and active;
* `Frontier.expand` : depth-first from dependents of a covered objective;
* `Frontier.update` : the active objectives after a population has been run;
* `Frontier.ofAnalysis` : the frontier of the graphs of an analysis;
* `Policy` : rank every objective, or those on a frontier.
-/

namespace CoverSearch

/-- Objectives that wait for the objectives that control them. -/
structure Frontier where
  roots : List Nat
  /-- For each objective the objectives it controls. -/
  dependents : Array (List Nat)
  visited : Array Bool

namespace Frontier

/-- A frontier before its first use. -/
def new (roots : List Nat) (dependents : Array (List Nat)) : Frontier :=
  ⟨roots, dependents, Array.replicate dependents.size false⟩

/-- An objective marked as visited. -/
def mark (visited : Array Bool) (i : Nat) : Except Fault (Array Bool) :=
  if h : i < visited.size then .ok (visited.set i true) else .error .outOfRange

/-- The frontier at the start of a search for `count` objectives, and its active objectives. -/
def initial (f : Frontier) (count : Nat) : Except Fault (Frontier × List Nat) := do
  let unvisited := Array.replicate (max count f.dependents.size) false
  return ({ f with visited := ← f.roots.foldlM mark unvisited }, f.roots)

/-- Marking an objective leaves fewer unmarked ones. -/
theorem count_set_lt {visited : Array Bool} {d : Nat} (hd : d < visited.size) (hv : ¬visited[d] = true) :
    (visited.set d true).count false < visited.count false := by
  have hf : visited[d] = false := by simpa using hv
  have hm : false ∈ visited := hf ▸ Array.getElem_mem hd
  have := Array.count_pos_iff.2 hm
  rw [Array.count_set]
  simp [hf]
  omega

/-- The visited marks after following `pending`, and the objectives that become active, in order. -/
def expand (dependents : Array (List Nat)) (covered : Nat → Except Fault Bool) (visited : Array Bool) :
    (pending : List Nat) → Except Fault (Array Bool × List Nat)
  | [] => .ok (visited, [])
  | d :: pending =>
    if hd : d < visited.size then
      if _hv : visited[d] = true then expand dependents covered visited pending
      else
        match covered d with
        | .error e => .error e
        | .ok false => do
          let (visited, fresh) ← expand dependents covered (visited.set d true) pending
          return (visited, d :: fresh)
        | .ok true =>
          match dependents[d]? with
          | none => .error .outOfRange
          | some next => expand dependents covered (visited.set d true) (next ++ pending)
    else .error .outOfRange
termination_by pending => (visited.count false, pending.length)
decreasing_by
  · exact Prod.Lex.right _ (Nat.lt_succ_self _)
  all_goals exact Prod.Lex.left _ _ (count_set_lt hd _hv)

/-- A covered objective leaves the active ones, and its dependents are followed. -/
def pass (f : Frontier) (covered : Nat → Except Fault Bool) (active : List Nat) (t : Nat) :
    Except Fault (Frontier × List Nat × Nat) := do
  match f.dependents[t]? with
  | none => .error .outOfRange
  | some next =>
    let (visited, fresh) ← expand f.dependents covered f.visited next
    return ({ f with visited }, active.filter (· != t) ++ fresh, fresh.length)

/-- The frontier, its active objectives and the number of those that entered, after each of `snapshot` has been looked
at in turn. -/
def passAll (covered : Nat → Except Fault Bool) (f : Frontier) (active : List Nat) (added : Nat) :
    (snapshot : List Nat) → Except Fault (Frontier × List Nat × Nat)
  | [] => .ok (f, active, added)
  | t :: snapshot => do
    if ← covered t then
      let (f, active, fresh) ← f.pass covered active t
      passAll covered f active (added + fresh) snapshot
    else passAll covered f active added snapshot

/-- The frontier after a population has been run, given which objectives that population covers. -/
def update (f : Frontier) (covered : Nat → Except Fault Bool) (active : List Nat) :
    Except Fault (Frontier × List Nat × Nat) :=
  passAll covered f active 0 active

/-! ## Graphs -/

/-- The last position of a target among objectives. -/
def lastIndex? (objectives : List BlockObjective) (t : Target) : Option Nat :=
  (objectives.reverse.findIdx? fun o => o.target == t).map fun i => objectives.length - 1 - i

/-- The frontier that starts at the targets controlled by roots alone and follows direct dependents. -/
def ofAnalysis (a : Analysis) (objectives : List BlockObjective) : Except Fault Frontier := do
  let dependents ← objectives.mapM fun o => do
    return (← a.dependents o.target).filterMap (lastIndex? objectives)
  return new (a.independentTargets.filterMap (lastIndex? objectives)) dependents.toArray

end Frontier

/-! ## Policies -/

/-- Which objectives are ranked. -/
inductive Policy
  | all
  | dynamic (frontier : Frontier)

/-- Whether some individual of a population covers the objective at a position. -/
def coveredBy (objectives : Array (Objective C)) (population : List C) (t : Nat) : Except Fault Bool :=
  match objectives[t]? with
  | some o => .ok (population.any o.covers)
  | none => .error .outOfRange

namespace Policy

/-- The objectives ranked at the start of a search for `count` objectives. -/
def initial (p : Policy) (count : Nat) : Except Fault (Policy × List Nat) :=
  match p with
  | .all => .ok (.all, List.range count)
  | .dynamic f => do
    let (f, active) ← f.initial count
    return (.dynamic f, active)

/-- The ranked objectives after a population has been run, and the number of those that entered. -/
def update (p : Policy) (objectives : Array (Objective C)) (population : List C) (active : List Nat) :
    Except Fault (Policy × List Nat × Nat) :=
  match p with
  | .all => .ok (.all, active, 0)
  | .dynamic f => do
    let (f, active, added) ← f.update (coveredBy objectives population) active
    return (.dynamic f, active, added)

end Policy

end CoverSearch
