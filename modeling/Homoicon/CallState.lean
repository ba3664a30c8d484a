import Homoicon.Fault
import Homoicon.Scope

/-!
# Calls as data

An action about to be invoked, and the state of its call: one slot per parameter, which slots were
filled, and the refinements that are in use.
-/

namespace Homoicon

structure PendingCall where
  action : Action
  label : String
  left : Option Value := none
  /-- The refinements named at the callsite. -/
  requests : List String := []

structure Request where
  name : String
  /-- Whether the action has turned out to have it. -/
  matched : Bool := false
  deriving DecidableEq, Inhabited

structure CallState where
  action : Action
  label : String
  /-- One slot per parameter, void until filled. -/
  slots : List Value
  /-- The positions of the slots that were filled, the latest first. -/
  filled : List Nat := []
  requests : List Request := []
  /-- Refinements in use whose arguments are taken after all others. -/
  pickups : List Nat := []
  /-- Refinements switched on by a silenced argument. -/
  modalOn : List Nat := []

instance : Inhabited CallState := ⟨{ action := default, label := "", slots := [] }⟩

namespace CallState

def start (p : PendingCall) : CallState :=
  { action := p.action
    label := p.label
    slots := p.action.params.map fun _ => .void
    requests := p.requests.map fun name => { name } }

def fill (c : CallState) (index : Nat) (v : Value) : CallState :=
  { c with slots := c.slots.set index v, filled := index :: c.filled }

def refill (c : CallState) (index : Nat) (v : Value) : CallState :=
  { c with slots := c.slots.set index v }

def isFilled (c : CallState) (index : Nat) : Bool := c.filled.contains index

def slot (c : CallState) (index : Nat) : Value := (c.slots[index]?).getD .void

def arguments (c : CallState) : Bindings :=
  (c.action.params.zip c.slots).zipIdx.filterMap fun ((p, v), index) =>
    if c.isFilled index then some (p.name, v) else none

def named? (c : CallState) (name : String) : Option Value :=
  (c.action.findParam? name).map c.slot

def uses (c : CallState) (name : String) : Bool :=
  (c.action.findRefinement? name).any fun index => !(c.slot index).isNull

/-- The fault of a slot that holds a value of the wrong kind. -/
def mismatch (c : CallState) (index : Nat) : Fault :=
  .of (.wrongType c.label ((c.action.params[index]?).map (·.name) |>.getD "") (c.slot index).kind)

end CallState

end Homoicon
