import Homoicon.Evaluate.Frame

/-!
# Calls

The checks that the slots of a call undergo, and what a call hands back.
-/

namespace Homoicon

def checkType (label : String) (p : Param) (v : Value) : Except Fault Unit :=
  if p.types.accepts v then .ok () else .error (.of (.wrongType label p.name v.kind))

def checkUnless (excused : Bool) (label : String) (p : Param) (v : Value) : Except Fault Unit :=
  if v.isNull && excused then .ok () else checkType label p v

def noArgument (label : String) (p : Param) : Fault := .of (.noArgument label p.name)

/-- Checks a slot that was filled from the callsite once more.  A null may stand for an absent
argument where one is allowed. -/
def CallState.checkSlot (c : CallState) (p : Param) (index : Nat) : Except Fault Unit :=
  match p.role with
  | .normal | .hardQuote | .softQuote | .modal =>
    checkUnless p.mayBeAbsent c.label p (c.slot index)
  | _ => .ok ()

/-- Checks every slot that was filled from the callsite once more, in order. -/
def CallState.checkAll (c : CallState) : Except Fault Unit :=
  c.action.params.zipIdx.forM fun (p, index) => c.checkSlot p index

/-- Makes a call visible as a frame value, with its arguments as they are now. -/
def reifyCall (id : FrameId) (c : CallState) : Eval FrameRef := do
  Eval.command (.reify id c.arguments)
  return ⟨id, c.label⟩

/-- What a dispatcher hands back to the call it runs in. -/
inductive Bounce where
  | out (v : Value)
  | invisible
  /-- Go on as another action with the same slots, checking them anew if asked to. -/
  | redo (action : Action) (checked : Bool)

end Homoicon
