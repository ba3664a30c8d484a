import Homoicon.Evaluate.Fulfil
import Homoicon.Evaluate.Operation.Access
import Homoicon.Evaluate.Operation.Arithmetic
import Homoicon.Evaluate.Operation.Comparison
import Homoicon.Evaluate.Operation.Control
import Homoicon.Evaluate.Operation.Generator
import Homoicon.Evaluate.Operation.Host

/-!
# Invoking actions

A call fills its slots and runs the dispatcher of its action.  An adaptation runs its prelude with
the parameters as variables and goes on as the action it adapts, with the slots as the prelude left
them, checked anew.
-/

namespace Homoicon

def Operation.run (op : Operation) (ev : Evaluator) (c : Call) : Eval Bounce :=
  match op with
  | .arithmetic op => do
    let v ← Eval.ofExcept (op.run c.state)
    return .out v
  | .comparison op => do
    let v ← Eval.ofExcept (op.run c.state)
    return .out v
  | .control op => op.run ev c
  | .access op => op.run ev c
  | .generator op => op.run ev c
  | .host op => op.run c

/-- Defines the parameters of a call as variables of a scope. -/
def bindParams (a : Action) (scope : ScopeId) : List (Nat × Param × Value) → Eval Unit
  | [] => return ()
  | (index, p, v) :: rest => do
    Eval.onlyIf (a.bindsWord index) (Eval.define scope p.name v)
    bindParams a scope rest

/-- A child of `scope` with the parameters of a call as its variables. -/
def bodyScope (c : CallState) (scope : ScopeId) : Eval ScopeId := do
  let inner ← Eval.newScope (some scope)
  bindParams c.action inner ((c.action.params.zip c.slots).zipIdx.map fun (e, i) => (i, e.1, e.2))
  return inner

/-- Checks a result against the declared types of the definitional return. -/
def checkResult (c : CallState) (v : Value) : Except Fault Unit :=
  match c.action.params.find? fun p => p.role == .returns with
  | some p => checkType c.label p v
  | none => .ok ()

/-- The call with the slots of the given parameters as the words of a scope say. -/
def refillFrom (scope : ScopeId) : List (Param × Nat) → CallState → Eval CallState
  | [], c => return c
  | (p, index) :: rest, c => do
    if c.action.isSpecializable p index then
      match ← Eval.lookup scope p.name with
      | some v => refillFrom scope rest (c.refill index v)
      | none => refillFrom scope rest c
    else refillFrom scope rest c

namespace Evaluator

/-- Runs an interpreted body.  A return to this very activation gives the result. -/
def runBody (ev : Evaluator) (id : FrameId) (c : CallState) (body : List Value) (scope : ScopeId) :
    Eval Bounce := do
  let inner ← bodyScope c scope
  let body : Eval Value := do
    let v ← ev.runUnits body inner
    return v.getD .void
  let result ← body.handle (.activation id) fun s => do
    Eval.note (.returnCaught id)
    return s.payload
  Eval.ofExcept (checkResult c result)
  return .out result

/-- Runs the prelude of an adaptation and takes over the slots as it left them. -/
def runPrelude (ev : Evaluator) (c : CallState) (prelude : List Value) (scope : ScopeId) :
    Eval CallState := do
  let inner ← bodyScope c scope
  let _ ← ev.runUnits prelude inner
  refillFrom inner c.action.params.zipIdx c

/-- Runs the dispatcher of a call once; the prelude of an adaptation may change the slots. -/
def runDispatcher (ev : Evaluator) (frame : Frame) (c : CallState) : Eval (Bounce × CallState) := do
  match c.action.dispatcher with
  | .native n =>
    Eval.command (.mark (.operation n c))
    let bounce ← n.operation.run ev { frame, state := c }
    return (bounce, c)
  | .interpreted body scope =>
    let bounce ← ev.runBody frame.id c body scope
    return (bounce, c)
  | .adapted prelude scope adaptee =>
    let c ← ev.runPrelude c prelude scope
    return (.redo adaptee true, c)
  | .returnTo target => Eval.signal { label := .returnTo target, payload := c.slot 0 }

/-- Runs a call whose slots are filled, going on as another action as long as a dispatcher asks for
it.  Only an action with the same parameter list can take over.  A chain of adaptations ends by
itself; patience is for operations that redirect their call. -/
def runFilled (ev : Evaluator) (frame : Frame) : Nat → CallState → Eval (Option Value)
  | 0, _ => Eval.exhaust
  | fuel + 1, c => do
    let (bounce, c) ← ev.runDispatcher frame c
    match bounce with
    | .out v => return some v
    | .invisible => return none
    | .redo action checked =>
      if c.action.signature ≠ action.signature then
        Eval.failWith (.native
          (c.label ++ " cannot redo into an action with a different parameter list"))
      else
        Eval.note (.redone c.label checked)
        let c := { c with action }
        Eval.onlyIf checked (Eval.ofExcept c.checkAll)
        ev.runFilled frame fuel c

/-- Fills the slots of a call and runs it; no value means that the call is invisible. -/
def runCall (ev : Evaluator) (frame : Frame) (p : PendingCall) : Eval (Option Value) := do
  Eval.note (.invoked p.label frame.id p.left.isSome)
  let c ← ev.fulfil frame p.left (CallState.start p)
  ev.runFilled frame (p.action.adaptations + 1 + ev.patience) c

/-- Invokes an action in a frame of its own.  A fault without a unit gets the unit consumed last. -/
def invoke (ev : Evaluator) (feed : FeedId) (p : PendingCall) : Eval (Option Value) :=
  (withFrame feed (some p.label) fun frame => ev.runCall frame p).mapFault fun f => do
    match ← Eval.command (.lookback feed) with
    | some unit => return f.nearUnit unit.mold
    | none => return f

end Evaluator

end Homoicon
