import Homoicon.Evaluate.Step

/-!
# Watched steps

A frame can be stepped from outside, one expression at a time, to see what every step leaves in its
output, in its feed and on the machine.
-/

namespace Homoicon

structure Watch where
  /-- Whether the frame evaluates an argument. -/
  fulfilling : Bool := false
  /-- Whether every step is kept from looking ahead. -/
  noLookahead : Bool := false
  /-- Whether steps that produce nothing are passed over. -/
  visibleOnly : Bool := false
  /-- After how many steps a stop is requested. -/
  interruptAfter : Option Nat := none
  deriving DecidableEq, Inhabited

def Watch.limit : Nat := 200

structure Observation where
  frame : Frame
  feed : Feed
  tick : Nat
  depth : Nat
  printed : String

inductive WatchEnd where
  /-- The feed ended, or the limit was reached. -/
  | finished
  | thrown (s : Signal)
  | failed (f : Fault)

structure Watched where
  observations : List Observation
  ending : WatchEnd

namespace Evaluator

def observe (frame : Frame) : Eval Observation := do
  let printed ← Eval.takePrinted
  let feed ← Eval.command (.feed frame.feed)
  let tick ← Eval.command .tick
  let depth ← Eval.command .depth
  return { frame, feed, tick, depth, printed }

def watchStep (ev : Evaluator) (w : Watch) (taken : Nat) (frame : Frame) : Eval Stepped := do
  Eval.onlyIf w.noLookahead (Eval.setNoLookahead frame.feed)
  Eval.onlyIf (w.interruptAfter == some taken) Eval.requestStop
  if w.visibleOnly then ev.stepVisible frame else ev.step frame

/-- Watches at most `fuel` steps; `seen` are those before them, the last first.  A step that throws
is seen, a step that fails is not. -/
def watchFrom (ev : Evaluator) (w : Watch) (seen : List Observation) : Nat → Frame → Eval Watched
  | 0, _ => return ⟨seen.reverse, .finished⟩
  | fuel + 1, frame => do
    match ← (ev.watchStep w seen.length frame).catchFault with
    | .error f => return ⟨seen.reverse, .failed f⟩
    | .ok stepped =>
      let observation ← observe stepped.frame
      match stepped.signal with
      | some s => return ⟨(observation :: seen).reverse, .thrown s⟩
      | none =>
        if observation.feed.isEnd then return ⟨(observation :: seen).reverse, .finished⟩
        else ev.watchFrom w (observation :: seen) fuel stepped.frame

/-- Watches the steps of units of code in a frame of its own. -/
def watchUnits (ev : Evaluator) (w : Watch) (units : List Value) (scope : ScopeId) :
    Eval Watched := do
  let feed ← Eval.newFeed units scope
  let _ ← Eval.takePrinted
  let watched ← (withFrame feed none fun frame =>
    ev.watchFrom w [] Watch.limit { frame with fulfilling := w.fulfilling }).catchFault
  match watched with
  | .ok watched => return watched
  | .error f => return ⟨[], .failed f⟩

end Evaluator

end Homoicon
