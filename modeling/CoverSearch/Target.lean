/-!
# Coverage targets

A target is a block of a code unit. The block `rootBlock` is the sentinel that stands for entering
the unit.

* `Target.render` : `unit:block`, or `unit:root` for the sentinel;
* `Target` is ordered by unit (code points, which is also the order of UTF-8 bytes), then by block.
-/

namespace CoverSearch

/-- The block that stands for the entry of a code unit. -/
def rootBlock : UInt64 := 0xFFFFFFFFFFFFFFFF

/-- A block of a code unit. -/
structure Target where
  unit : String
  block : UInt64
deriving DecidableEq, Inhabited

namespace Target

/-- The entry of a code unit. -/
def root (unit : String) : Target := ⟨unit, rootBlock⟩

def isRoot (t : Target) : Bool := t.block == rootBlock

/-- The name of a target in reports and drawings. -/
def render (t : Target) : String :=
  t.unit ++ ":" ++ if t.isRoot then "root" else toString t.block.toNat

instance : ToString Target := ⟨render⟩

/-- Unit first, then block. -/
instance : Ord Target := ⟨fun a b => (compare a.unit b.unit).then (compare a.block b.block)⟩

/-- The targets in ascending order, repeats kept. -/
def sort (ts : List Target) : List Target := ts.mergeSort fun a b => (compare a b).isLE

end Target

end CoverSearch
