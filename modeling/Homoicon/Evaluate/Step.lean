import Homoicon.Evaluate.Invoke
import Homoicon.Evaluate.Lookahead

/-!
# Steps

A step evaluates one expression of a feed.  It runs through named states: it looks at the current
unit, gives an enfixed action the chance to claim it, evaluates it, and takes on enfixed actions as
long as they follow.

Nested code is always run in a frame of its own, so the depth of nesting is bounded by the number of
frames that may be live; `stepWithin` recurses on that number.
-/

namespace Homoicon

namespace Evaluator

/-- Looks at the current unit.  A barrier is consumed and ends the step. -/
def startStep (frame : Frame) : Eval StepState := do
  match ← Eval.peek frame.feed with
  | none => return .finished
  | some .comma =>
    Eval.advance frame.feed
    return .finished
  | some unit => return .lookbackQuote unit

/-- The call of an action by a word that has no left operand to offer. -/
def callByWord (frame : Frame) (action : Action) (name : String) : Eval StepState := do
  if !action.enfixed then return .processAction { action, label := name }
  else
    let deferring ← Eval.deferring frame.feed
    if action.deferral != .none && deferring then Eval.failWith (.ambiguousInfix name)
    else if !action.toleratesAbsentLeft then
      Eval.fail ((Fault.of (.missingLeft name)).nearUnit (Value.word name).mold)
    else return .processAction { action, label := name, left := some .null }

def evalRightSide (ev : Evaluator) (frame : Frame) (target : Value) : Eval Value := do
  let needValue := (Fault.of (.needValue target.mold)).nearUnit target.mold
  if ← Eval.atArgumentEnd frame.feed then Eval.fail needValue
  else
    match ← ev.evalExpression frame.feed false with
    | some v => return v
    | none => Eval.fail needValue

def produced (frame : Frame) : Option Value → Frame × StepState
  | some v => ({ frame with out := frame.out.set v }, .postSwitch)
  | none => (frame, .postSwitch)

def dispatch (ev : Evaluator) (frame : Frame) (unit : Value) : Eval (Frame × StepState) := do
  Eval.advance frame.feed
  match unit with
  | .quoted payload => return produced frame (some payload)
  | .word name =>
    let v ← (Eval.resolve frame.feed name).mapFault fun f => return f.nearUnit unit.mold
    match v with
    | .action _ action =>
      let state ← callByWord frame action name
      return (frame, state)
    | v => return produced frame (some v)
  | .getWord name =>
    let v ← Eval.resolveGet frame.feed name
    return produced frame (some v)
  | .setWord name =>
    let v ← ev.evalRightSide frame unit
    let scope ← Eval.scopeOf frame.feed
    Eval.assign scope name v
    return produced frame (some v)
  | .sym payload =>
    let v ← ev.evalSilenced frame.feed payload
    return produced frame v
  | .group items =>
    let scope ← Eval.scopeOf frame.feed
    let v ← ev.runUnits items scope
    return produced frame v
  | .path items =>
    match ← ev.evalPath frame.feed items true with
    | .call p => return (frame, .processAction p)
    | .value v => return produced frame (some v)
  | .getPath items =>
    let v ← ev.evalPathValue frame.feed items
    return produced frame (some v)
  | .setPath items =>
    let v ← ev.evalRightSide frame unit
    ev.assignPath frame.feed items v
    return produced frame (some v)
  | .action _ action =>
    return (frame, .processAction { action, label := action.labelOr "anonymous" })
  | .comma => return (frame, .finished)
  | inert => return produced frame (some inert)

/-- Invokes an action; its value becomes the value of the step. -/
def processAction (ev : Evaluator) (frame : Frame) (p : PendingCall) :
    Eval (Frame × StepState) := do
  match ← ev.invoke frame.feed p with
  | some v => return ({ frame with out := frame.out.set v }, .postSwitch)
  | none => return ({ frame with out := frame.out.markStale }, .postSwitch)

def transition (ev : Evaluator) (frame : Frame) : StepState → Eval (Frame × StepState)
  | .start => do
    let state ← startStep frame
    return (frame, state)
  | .lookbackQuote unit => do
    let state ← ev.lookbackQuote frame.feed unit
    return (frame, state)
  | .dispatch unit => ev.dispatch frame unit
  | .processAction p => ev.processAction frame p
  | .postSwitch => postSwitch frame
  | .finished => return (frame, .finished)

/-- Notes a state by its name in the journal, if the configuration asks for it. -/
def noteState (frame : Frame) (name : String) : Eval Unit :=
  Eval.command (.noteState frame.id name)

/-- Runs through the states of a step, at most `fuel` of them.  A thrown signal ends the step. -/
def drive (ev : Evaluator) : Nat → Frame → StepState → Eval Stepped
  | 0, _, _ => Eval.exhaust
  | fuel + 1, frame, state => do
    noteState frame state.name
    match state with
    | .finished => return { frame }
    | state =>
      match ← (ev.transition frame state).catchSignal with
      | .ok (frame, state) => ev.drive fuel frame state
      | .error s =>
        noteState frame "thrown"
        return { frame, signal := some s }

/-- Evaluates one expression of a frame's feed.  The output of the frame then holds the value, or is
stale if there was none.  A step that consumes `k` units runs through at most `2 * k + 4` states. -/
def evalStep (ev : Evaluator) (frame : Frame) : Eval Stepped := do
  let noLookahead ← Eval.takeNoLookahead frame.feed
  let frame := { frame with out := frame.out.markStale, noLookahead }
  match ← Eval.poll with
  | some s => return { frame, signal := some s }
  | none =>
    let units ← Eval.unitsLeft frame.feed
    ev.drive (2 * units + 4) frame .start

end Evaluator

/-- A step with nested code at most `nesting` frames deeper. -/
def stepWithin (patience : Nat) : Nat → Frame → Eval Stepped
  | 0, _ => Eval.exhaust
  | nesting + 1, frame => Evaluator.evalStep ⟨stepWithin patience nesting, patience⟩ frame

/-- How many rounds a loop without a bound of its own may take before an evaluation gives up: more
than any run will see. -/
def defaultPatience : Nat := Nat.pow 2 62

/-- The evaluator for a given configuration.  Every nested step runs in at least one more frame than
the step around it, so the nesting never exceeds the number of frames that may be live. -/
def Evaluator.ofConfig (c : Config) : Evaluator :=
  ⟨stepWithin defaultPatience (c.maxDepth + 1), defaultPatience⟩

end Homoicon
