import Homoicon.Evaluate.Operation.Slots

/-!
# Control flow

Branches run in the scope of the callsite.  Loops take `break` and `continue`, `catch` takes throws,
and `trap` is the one boundary that turns a fault back into a value.
-/

namespace Homoicon

inductive LoopFlow where
  /-- Go on; the body may have produced a value. -/
  | next (v : Option Value)
  | stop

namespace Evaluator

def loopFlow (s : Signal) : LoopFlow :=
  match s.label with
  | .breakLoop => .stop
  | _ => .next none

def runLoopBody (ev : Evaluator) (c : Call) (body : List Value) : Eval LoopFlow :=
  let once : Eval LoopFlow := do
    let v ← ev.runBlock c body
    return .next v
  once.handle (.loop body) fun s => return loopFlow s

/-- Runs a body a number of times; `last` is the last value produced so far. -/
def loopTimes (ev : Evaluator) (c : Call) (body : List Value) (last : Option Value) :
    Nat → Eval Value
  | 0 => return last.getD .null
  | n + 1 => do
    match ← ev.runLoopBody c body with
    | .next v => ev.loopTimes c body (v.or last) n
    | .stop => return .null

/-- Runs a body while a condition holds.  Nothing bounds the number of rounds but patience. -/
def loopWhile (ev : Evaluator) (c : Call) (condition body : List Value) (last : Option Value) :
    Nat → Eval Value
  | 0 => Eval.exhaust
  | n + 1 => do
    let test ← ev.runBlock c condition
    if test.any Value.isTruthy then
      match ← ev.runLoopBody c body with
      | .next v => ev.loopWhile c condition body (v.or last) n
      | .stop => return .null
    else return last.getD .null

end Evaluator

/-- The names that a catch waits for, if it waits for named throws. -/
def catchNames? : Option Value → Option (List Value)
  | some (.word name) => some [.word name]
  | some (.block items) => some items
  | _ => none

def Control.run (op : Control) (ev : Evaluator) (c : Call) : Eval Bounce := do
  match op with
  | .ifTrue =>
    let branch ← c.block 1
    if (c.slot 0).isTruthy then ev.runBranch c branch else return .out .null
  | .either =>
    let branch ← c.block (if (c.slot 0).isTruthy then 1 else 2)
    ev.runBranch c branch
  | .loop =>
    let count ← c.integer 0
    let body ← c.block 1
    let v ← ev.loopTimes c body none count.toInt.toNat
    return .out v
  | .whileTrue =>
    let condition ← c.block 0
    let body ← c.block 1
    let v ← ev.loopWhile c condition body none ev.patience
    return .out v
  | .breakLoop => Eval.signal { label := .breakLoop }
  | .continueLoop => Eval.signal { label := .continueLoop }
  | .catchThrow =>
    let block ← c.block 0
    let body : Eval Value := do
      let v ← ev.runBlock c block
      return v.getD .null
    let v ← body.handle (.catching (catchNames? (c.state.named? "names"))) fun s => do
      Eval.note (.signalCaught s)
      return s.payload
    return .out v
  | .throwValue =>
    let name :=
      match c.state.named? "word" with
      | some (.word w) => some (.word w)
      | _ => none
    Eval.signal { label := .throw name, payload := c.slot 0 }
  | .trap =>
    let block ← c.block 0
    match ← (ev.runBlock c block).catchFault with
    | .ok _ => return .out .null
    | .error f =>
      Eval.note (.faultTrapped f)
      let id ← Eval.freshIdentity
      return .out (.error id f)
  | .fail =>
    match c.slot 0 with
    | .text s => Eval.failWith (.user s)
    | .error _ f => Eval.fail f
    | _ => c.mismatch 0
  | .halt => Eval.signal Signal.halt
  | .thenBranch =>
    let branch ← c.block 1
    if (c.slot 0).isNull then return .out .null else ev.runBranch c branch
  | .elseBranch =>
    let branch ← c.block 1
    if (c.slot 0).isNull then ev.runBranch c branch else return .out (c.slot 0)
  | .alsoBranch =>
    let branch ← c.block 1
    if (c.slot 0).isNull then return .out .null
    else
      let _ ← ev.runBlock c branch
      return .out (c.slot 0)
  | .accept => Eval.signal { label := .dialect Signal.acceptName, payload := c.slot 0 }
  | .reject => Eval.signal { label := .dialect Signal.rejectName }

end Homoicon
