import Homoicon.Evaluate.Operation.Slots

/-!
# Operations of a host

A host can add operations that show a call from the inside (its slots, its frame, the stack around
it) or redirect it to the implementation of another action.
-/

namespace Homoicon

/-- The text that a slot of a given name holds, an empty one if it holds none. -/
def namedText (c : CallState) (name : String) : String :=
  match c.named? name with
  | some (.text s) => s
  | _ => ""

/-- A label of the call, whether it uses `/loud` and `/nope`, the depth, the tick, and the labels of
the live calls. -/
def callReport (c : CallState) : Eval Value := do
  let depth ← Eval.command .depth
  let tick ← Eval.command .tick
  let labels ← Eval.command .backtrace
  return .block ([.text c.label, .logic (c.uses "loud"), .logic (c.uses "nope"),
    .integer (Int64.ofNat depth), .integer (Int64.ofNat tick)] ++ labels.map .text)

def HostOperation.run (op : HostOperation) (c : Call) : Eval Bounce := do
  match op with
  | .echo => return .out (.block c.state.slots)
  | .double =>
    let n ← c.integer 0
    return .out (.integer (n * 2))
  | .joinText =>
    match c.slot 0, c.slot 1 with
    | .text left, .text right => return .out (.text (left ++ namedText c.state "sep" ++ right))
    | _, _ => c.mismatch 0
  | .frameHere =>
    let f ← reifyCall c.frame.id c.state
    return .out (.frame f)
  | .varargsFrame =>
    match c.slot 0 with
    | .varargs _ v =>
      match v.frame with
      | some f => return .out (.frame f)
      | none => return .out .null
    | _ => c.mismatch 0
  | .callInfo =>
    let report ← callReport c.state
    return .out report
  | .requestHalt =>
    Eval.requestStop
    return .invisible
  | .rawCall =>
    match c.slot 3 with
    | .word name =>
      let scope ← c.scope
      match ← Eval.lookup scope name with
      | some (.action _ a) =>
        return .redo { c.state.action with dispatcher := a.dispatcher } (c.state.uses "checked")
      | _ => c.mismatch 3
    | _ => c.mismatch 3
  | .redoInto =>
    let a ← c.action 0
    return .redo a false
  | .accepts =>
    let a ← c.action 0
    let index ← c.integer 1
    match if 0 ≤ index.toInt then a.params[index.toInt.toNat]? else none with
    | some p => return .out (.logic (p.types.accepts (c.slot 2)))
    | none => return .out (.datatype .void)

end Homoicon
