import Homoicon.Signal

/-!
# The journal

What an evaluator notes while it works.  An event has a target, which names the part that noted it,
and fields in a fixed order, the message first.
-/

namespace Homoicon

inductive Event where
  | installed (natives operators : Nat)
  | ready (maxDepth pollInterval natives : Nat)
  | finished (steps : Nat)
  /-- A state of the step driver, before it is handled. -/
  | stepState (tick : Nat) (frame : FrameId) (state : String)
  | invoked (action : String) (frame : FrameId) (enfix : Bool)
  | redone (action : String) (checked : Bool)
  | returnCaught (frame : FrameId)
  | leftQuoteClaimed (action : String) (left : Value)
  | lookaheadSuppressed (action : String)
  | deferred (action : String)
  | postponed (action : String)
  | revoked (action refinement : String)
  | interrupted (tick : Nat)
  | firstAssignment (name : String)
  | functionCreated (params : Nat)
  | signalCaught (s : Signal)
  | faultTrapped (f : Fault)

namespace Event

def target : Event → String
  | installed .. => "reval::natives"
  | ready .. | finished _ => "reval::interpreter"
  | stepState .. => "reval::eval::step"
  | invoked .. | redone .. | returnCaught _ => "reval::eval::call"
  | leftQuoteClaimed .. | lookaheadSuppressed _ | deferred _ | postponed _ =>
    "reval::eval::lookahead"
  | revoked .. => "reval::eval::fulfill"
  | interrupted _ => "reval::eval"
  | firstAssignment _ => "reval::environment"
  | functionCreated _ => "reval::natives::func"
  | signalCaught _ => "reval::natives::catch"
  | faultTrapped _ => "reval::natives::trap"

def flag (b : Bool) : String := if b then "true" else "false"

def fields : Event → List (String × String)
  | installed natives operators =>
    [("message", "installed"), ("natives", Nat.repr natives), ("operators", Nat.repr operators)]
  | ready maxDepth pollInterval natives =>
    [("message", "interpreter ready"), ("max_depth", Nat.repr maxDepth),
     ("poll_interval", Nat.repr pollInterval), ("natives", Nat.repr natives)]
  | finished steps => [("message", "evaluation finished"), ("steps", Nat.repr steps)]
  | stepState tick frame state =>
    [("tick", Nat.repr tick), ("frame", Nat.repr frame), ("state", state)]
  | invoked action frame enfix =>
    [("message", "invoke"), ("action", action), ("frame", Nat.repr frame), ("enfix", flag enfix)]
  | redone action checked =>
    [("message", "redo"), ("action", action), ("checked", flag checked)]
  | returnCaught frame => [("message", "return caught"), ("frame", Nat.repr frame)]
  | leftQuoteClaimed action left =>
    [("message", "left quote claimed"), ("action", action), ("left", left.mold)]
  | lookaheadSuppressed action => [("message", "no-lookahead"), ("action", action)]
  | deferred action => [("message", "deferred"), ("action", action)]
  | postponed action => [("message", "postponed"), ("action", action)]
  | revoked action refinement =>
    [("message", "revoked"), ("action", action), ("refinement", refinement)]
  | interrupted tick => [("message", "interrupt requested, halting"), ("tick", Nat.repr tick)]
  | firstAssignment name => [("message", "defining on first assignment"), ("name", name)]
  | functionCreated params => [("message", "created function"), ("params", Nat.repr params)]
  | signalCaught s => [("message", "caught"), ("signal", s.message)]
  | faultTrapped f => [("message", "trapped"), ("error", f.message)]

def line (e : Event) : String :=
  e.target ++ String.join (e.fields.map fun (name, value) => " " ++ name ++ "=" ++ value)

end Event

end Homoicon
