import Homoicon.Value.Basic

/-!
# Output cells

An output cell holds the value of a step.  A step that produces nothing leaves the cell stale, and
the value before it stays behind, so that a sequence of steps can tell the last value produced.
-/

namespace Homoicon

/-- A result, or the mark that there is none. -/
structure OutCell where
  last : Option Value := none
  stale : Bool := true

instance : Inhabited OutCell := ⟨{}⟩

namespace OutCell

def set (_ : OutCell) (v : Value) : OutCell := ⟨some v, false⟩

def markStale (c : OutCell) : OutCell := { c with stale := true }

def get? (c : OutCell) : Option Value := if c.stale then none else c.last

/-- The cell after its value was moved out: nothing is left behind. -/
def taken (c : OutCell) : OutCell := if c.stale then c else ⟨none, true⟩

@[simp] theorem get?_set (c : OutCell) (v : Value) : (c.set v).get? = some v := rfl

@[simp] theorem get?_markStale (c : OutCell) : c.markStale.get? = none := rfl

@[simp] theorem last_markStale (c : OutCell) : c.markStale.last = c.last := rfl

end OutCell

end Homoicon
