import Homoicon.Evaluate.Escape

/-!
# Enfix lookahead

A step looks ahead twice: before a unit is evaluated, an enfixed action that quotes its left operand
may claim the unit as it stands; after a value is produced, an ordinary enfixed action may take it
as its left operand.  After a value, an action that quotes its left operand is never taken, then the
request not to look ahead counts, then a missing left operand, then deferral.
-/

namespace Homoicon

inductive StepState where
  | start
  /-- See whether an action that quotes its left operand claims the unit. -/
  | lookbackQuote (unit : Value)
  | dispatch (unit : Value)
  | processAction (p : PendingCall)
  /-- A value was produced, or nothing was; look for an enfixed action. -/
  | postSwitch
  | finished

def StepState.name : StepState → String
  | .start => "start"
  | .lookbackQuote _ => "lookback-quote"
  | .dispatch _ => "dispatch"
  | .processAction _ => "process-action"
  | .postSwitch => "post-switch"
  | .finished => "finished"

def wordAction? (feed : FeedId) : Option Value → Eval (Option (String × Action))
  | some (.word name) => do
    let scope ← Eval.scopeOf feed
    match ← Eval.lookup scope name with
    | some (.action _ a) => return some (name, a)
    | _ => return none
  | _ => return none

/-- The parameter for which an action claims the unit to its left as it stands. -/
def Action.claims? (a : Action) (unit : Value) : Option Param :=
  a.firstParam?.filter fun p => a.quotesFirst && !(p.types.skippable && !p.types.accepts unit)

/-- The action after the current unit that claims `unit` as it stands, with the parameter it is
for. -/
def leftClaim? (feed : FeedId) (unit : Value) : Eval (Option (String × Action × Param)) := do
  let next ← Eval.command (.peekNext feed)
  match ← wordAction? feed next with
  | some (name, action) => return (action.claims? unit).map fun p => (name, action, p)
  | none => return none

namespace Evaluator

def claimedUnit (ev : Evaluator) (feed : FeedId) (p : Param) (unit : Value) : Eval Value :=
  if p.role = .softQuote then do
    let v ← ev.softEscape feed unit
    return v.getD .null
  else return unit

/-- Gives an action after `unit` the chance to claim it.  Only the next unit is looked at, and
nothing is consumed unless the action takes the unit. -/
def lookbackQuote (ev : Evaluator) (feed : FeedId) (unit : Value) : Eval StepState := do
  match ← leftClaim? feed unit with
  | none => return .dispatch unit
  | some (label, action, p) =>
    Eval.advance feed
    Eval.advance feed
    Eval.note (.leftQuoteClaimed label unit)
    let left ← ev.claimedUnit feed p unit
    return .processAction { action, label, left := some left }

end Evaluator

/-- Whether an enfixed action that waits for the enclosing call must wait here. -/
def mustDefer (deferral : Deferral) (deferring : Bool) : Bool :=
  match deferral with
  | .none => false
  | .defer => !deferring
  | .postpone => true

def deferralEvent (deferral : Deferral) (label : String) : Event :=
  match deferral with
  | .postpone => .postponed label
  | _ => .deferred label

/-- After a step produced a value or nothing: takes on an enfixed action that comes next, lets it
wait, or finishes the step. -/
def postSwitch (frame : Frame) : Eval (Frame × StepState) := do
  let next ← Eval.peek frame.feed
  match ← wordAction? frame.feed next with
  | none => return (frame, .finished)
  | some (label, action) =>
    if !action.enfixed || action.quotesFirst then return (frame, .finished)
    else if frame.noLookahead then
      Eval.note (.lookaheadSuppressed label)
      return ({ frame with noLookahead := false }, .finished)
    else if frame.out.stale && !action.toleratesAbsentLeft then return (frame, .finished)
    else
      let deferring ← Eval.deferring frame.feed
      if frame.fulfilling && mustDefer action.deferral deferring then
        Eval.note (deferralEvent action.deferral label)
        Eval.setDeferring frame.feed true
        return (frame, .finished)
      else
        Eval.setDeferring frame.feed false
        Eval.advance frame.feed
        let left := frame.out.get?.getD .null
        return ({ frame with out := frame.out.taken },
          .processAction { action, label, left := some left })

end Homoicon
