import CoverSearch.Target
import CoverSearch.Value

/-!
# Coverage maps

The targets that an execution reached, each with the least branch distance recorded for it.

* `Coverage.record`, `Coverage.get?` : one more observation, and the distance of a target;
* `Coverage.nodup` : every target has one entry;
* `==` on maps compares targets and distances in any order; a map with a NaN equals none, itself included.
-/

namespace CoverSearch

namespace Coverage

/-- The entries after one more observation; a new target comes last. -/
def recordIn (t : Target) (d : Float) : List (Target × Float) → List (Target × Float)
  | [] => [(t, d)]
  | (u, e) :: rest => if u = t then (u, least e d) :: rest else (u, e) :: recordIn t d rest

theorem keys_recordIn (t : Target) (d : Float) (entries : List (Target × Float)) :
    (recordIn t d entries).map Prod.fst =
      if t ∈ entries.map Prod.fst then entries.map Prod.fst else entries.map Prod.fst ++ [t] := by
  induction entries with
  | nil => simp [recordIn]
  | cons entry rest ih =>
    obtain ⟨u, e⟩ := entry
    by_cases h : u = t
    · simp [recordIn, h]
    · have h' : t ≠ u := fun heq => h heq.symm
      simp only [recordIn, h, if_false, List.map_cons, ih, List.mem_cons, h', false_or]
      split <;> simp

theorem nodup_recordIn (t : Target) (d : Float) {entries : List (Target × Float)}
    (h : (entries.map Prod.fst).Nodup) : ((recordIn t d entries).map Prod.fst).Nodup := by
  rw [keys_recordIn]
  split
  · exact h
  · rename_i hm
    rw [List.nodup_append]
    refine ⟨h, by simp, ?_⟩
    intro a ha b hb hab
    simp only [List.mem_singleton] at hb
    exact hm (hb ▸ hab ▸ ha)

end Coverage

/-- The targets reached by an execution and their branch distances. -/
structure Coverage where
  entries : List (Target × Float)
  nodup : (entries.map Prod.fst).Nodup

namespace Coverage

/-- Nothing is reached yet. -/
def empty : Coverage := ⟨[], List.Pairwise.nil⟩

instance : Inhabited Coverage := ⟨empty⟩

/-- One more observation; the least distance of a target is kept. -/
def record (c : Coverage) (t : Target) (d : Float) : Coverage :=
  ⟨recordIn t d c.entries, nodup_recordIn t d c.nodup⟩

/-- The map of a list of observations. -/
def ofList (observations : List (Target × Float)) : Coverage :=
  observations.foldl (fun c o => c.record o.1 o.2) empty

/-- The distance kept for a target. -/
def get? (c : Coverage) (t : Target) : Option Float := c.entries.lookup t

def contains (c : Coverage) (t : Target) : Bool := (c.get? t).isSome

/-- The number of targets. -/
def size (c : Coverage) : Nat := c.entries.length

def isEmpty (c : Coverage) : Bool := c.entries.isEmpty

/-- The same targets with equal distances. -/
protected def beq (a b : Coverage) : Bool :=
  a.size == b.size && a.entries.all fun (t, d) =>
    match b.get? t with
    | some e => d == e
    | none => false

instance : BEq Coverage := ⟨Coverage.beq⟩

/-- The entries in ascending order of their targets. -/
def sorted (c : Coverage) : List (Target × Float) :=
  c.entries.mergeSort fun a b => (compare a.1 b.1).isLE

end Coverage

end CoverSearch
