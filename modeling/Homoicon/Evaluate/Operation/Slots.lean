import Homoicon.Evaluate.Run
import Homoicon.Evaluate.Call

/-!
# What an operation sees of its call

The slots by position and kind, the scope of the callsite, and running blocks in that scope.
-/

namespace Homoicon

structure Call where
  frame : Frame
  state : CallState

namespace Call

def slot (c : Call) (index : Nat) : Value := c.state.slot index

def mismatch {α : Type} (c : Call) (index : Nat) : Eval α := Eval.fail (c.state.mismatch index)

def integer (c : Call) (index : Nat) : Eval Int64 :=
  match c.slot index with
  | .integer n => pure n
  | _ => c.mismatch index

def block (c : Call) (index : Nat) : Eval (List Value) :=
  match c.slot index with
  | .block items => pure items
  | _ => c.mismatch index

def action (c : Call) (index : Nat) : Eval Action :=
  match c.slot index with
  | .action _ a => pure a
  | _ => c.mismatch index

def scope (c : Call) : Eval ScopeId := Eval.scopeOf c.frame.feed

end Call

namespace Evaluator

def runBlock (ev : Evaluator) (c : Call) (items : List Value) : Eval (Option Value) := do
  let scope ← c.scope
  ev.runUnits items scope

/-- Runs a block as the result of the call; a block that produces nothing comes to void. -/
def runBranch (ev : Evaluator) (c : Call) (items : List Value) : Eval Bounce := do
  let result ← ev.runBlock c items
  return .out (result.getD .void)

end Evaluator

end Homoicon
