import Homoicon.Evaluate.Frame

/-!
# Running code in frames of its own

What can be said of nested evaluation without saying what a step does: the step is a parameter.
A feed is run to its end, a block as a feed of its own, and an argument by stepping until something
visible is produced.
-/

namespace Homoicon

/-- What a step leaves: the frame, and the signal that ended the step, if one did. -/
structure Stepped where
  frame : Frame
  signal : Option Signal := none

structure Evaluator where
  step : Frame → Eval Stepped
  /-- How many rounds a loop without a bound of its own may take. -/
  patience : Nat

def Stepped.frameOrThrow (s : Stepped) : Eval Frame :=
  match s.signal with
  | some signal => Eval.signal signal
  | none => pure s.frame

namespace Evaluator

/-- Steps a frame until its feed ends.  Every step consumes a unit, so `fuel` is the number of
units at the start. -/
def stepToEnd (ev : Evaluator) : Nat → Frame → Eval Frame
  | 0, frame => do
    if ← Eval.atEnd frame.feed then return frame else Eval.exhaust
  | fuel + 1, frame => do
    if ← Eval.atEnd frame.feed then return frame
    else
      let stepped ← ev.step frame
      let frame ← stepped.frameOrThrow
      ev.stepToEnd fuel frame

/-- Runs a feed to its end; the result is the last value produced. -/
def runFeed (ev : Evaluator) (feed : FeedId) : Eval (Option Value) :=
  withFrame feed none fun frame => do
    let units ← Eval.unitsLeft feed
    let frame ← ev.stepToEnd units frame
    return frame.out.last

def runUnits (ev : Evaluator) (units : List Value) (scope : ScopeId) : Eval (Option Value) := do
  let feed ← Eval.newFeed units scope
  ev.runFeed feed

/-- Steps a frame until something visible is produced or no argument is left.  Every step but the
last consumes a unit.  A suppressed lookahead is meant for the value, so it is requested anew for
every step. -/
def stepToVisible (ev : Evaluator) (suppressed : Bool) : Nat → Frame → Eval Stepped
  | 0, _ => Eval.exhaust
  | fuel + 1, frame => do
    Eval.onlyIf suppressed (Eval.setNoLookahead frame.feed)
    let stepped ← ev.step frame
    match stepped.signal with
    | some _ => return stepped
    | none =>
      let ended ← Eval.atArgumentEnd stepped.frame.feed
      if !stepped.frame.out.stale || ended then return stepped
      else ev.stepToVisible suppressed fuel stepped.frame

/-- One step of a frame, not counting steps that produce nothing. -/
def stepVisible (ev : Evaluator) (frame : Frame) : Eval Stepped := do
  let suppressed ← Eval.takeNoLookahead frame.feed
  let units ← Eval.unitsLeft frame.feed
  ev.stepToVisible suppressed (units + 1) frame

/-- Evaluates one expression of a feed in a frame of its own. -/
def evalExpression (ev : Evaluator) (feed : FeedId) (fulfilling : Bool) : Eval (Option Value) :=
  withFrame feed none fun frame => do
    let stepped ← ev.stepVisible { frame with fulfilling }
    let frame ← stepped.frameOrThrow
    return frame.out.get?

/-- Evaluates every expression of a list of units and collects the values that are visible and not
null. -/
def reduceUnits (ev : Evaluator) (units : List Value) (scope : ScopeId) : Eval (List Value) := do
  let feed ← Eval.newFeed units scope
  withFrame feed none fun frame => collect frame.feed units.length frame []
where
  /-- Steps to the end of the feed; `values` are those found so far, the last first. -/
  collect (feed : FeedId) : Nat → Frame → List Value → Eval (List Value)
    | 0, _, values => do
      if ← Eval.atEnd feed then return values.reverse else Eval.exhaust
    | fuel + 1, frame, values => do
      if ← Eval.atEnd feed then return values.reverse
      else
        let stepped ← ev.step frame
        let frame ← stepped.frameOrThrow
        match frame.out.get? with
        | some v => collect feed fuel frame (if v.isNull then values else v :: values)
        | none => collect feed fuel frame values

end Evaluator

end Homoicon
