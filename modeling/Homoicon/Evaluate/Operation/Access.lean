import Homoicon.Evaluate.Operation.Slots
import Homoicon.Evaluate.Path

/-!
# Code as data and access to variables

Evaluating blocks and source text, quoting, reading and assigning variables, and printing.
-/

namespace Homoicon

def Call.valueOf (c : Call) (name : String) : Eval Value := do
  let scope ← c.scope
  match ← Eval.lookup scope name with
  | some v => return v
  | none => Eval.failWith (.unboundName name)

def doUnits (c : Call) : Eval (List Value) :=
  match c.slot 0 with
  | .block items | .group items => pure items
  | .text s =>
    match Source.scan s with
    | .ok items => pure items
    | .error e => Eval.failWith (.native e.message)
  | _ => c.mismatch 0

/-- The line that `print` prints: nothing for null, the reduced values of a block with blanks
between them, any other value by itself. -/
def Evaluator.printedLine (ev : Evaluator) (c : Call) : Eval (Option String) := do
  match c.slot 0 with
  | .null => return none
  | .block items =>
    let scope ← c.scope
    let values ← ev.reduceUnits items scope
    return some (String.intercalate " " (values.map Value.form))
  | v => return some v.form

def Evaluator.defaultTarget (ev : Evaluator) (c : Call) : Eval (Option Value) := do
  match c.slot 0 with
  | .setWord name =>
    let scope ← c.scope
    Eval.lookup scope name
  | .setPath items =>
    match ← ev.evalPath c.frame.feed items false with
    | .value v => return some v
    | .call _ => c.mismatch 0
  | _ => c.mismatch 0

/-- Whether `default` assigns over a value: over what is unset, null, blank or void. -/
def isUnset : Option Value → Bool
  | none | some .null | some .blank | some .void => true
  | _ => false

def Access.run (op : Access) (ev : Evaluator) (c : Call) : Eval Bounce := do
  match op with
  | .doSource =>
    let units ← doUnits c
    ev.runBranch c units
  | .reduce =>
    let items ← c.block 0
    let scope ← c.scope
    let values ← ev.reduceUnits items scope
    return .out (.block values)
  | .quote => return .out (.quoted (c.slot 0))
  | .the => return .out (c.slot 0)
  | .comment | .elide => return .invisible
  | .get =>
    match c.slot 0 with
    | .word name | .getWord name =>
      let v ← c.valueOf name
      return .out v
    | .path items =>
      match ← ev.evalPath c.frame.feed items false with
      | .value v => return .out v
      | .call _ => c.mismatch 0
    | _ => c.mismatch 0
  | .set =>
    match (c.slot 0).wordName? with
    | some name =>
      let scope ← c.scope
      Eval.assign scope name (c.slot 1)
      return .out (c.slot 1)
    | none => c.mismatch 0
  | .typeOf =>
    return .out (if (c.slot 0).isNull then .null else .datatype (c.slot 0).kind)
  | .isNull => return .out (.logic (c.slot 0).isNull)
  | .print =>
    match ← ev.printedLine c with
    | none => return .out .null
    | some line =>
      Eval.printLine line
      return .out .void
  | .assignDefault =>
    let branch ← c.block 1
    let current ← ev.defaultTarget c
    if isUnset current then
      let result ← ev.runBlock c branch
      let v := result.getD .null
      match c.slot 0 with
      | .setWord name =>
        let scope ← c.scope
        Eval.assign scope name v
        return .out v
      | .setPath items =>
        ev.assignPath c.frame.feed items v
        return .out v
      | _ => c.mismatch 0
    else return .out (current.getD .null)

end Homoicon
