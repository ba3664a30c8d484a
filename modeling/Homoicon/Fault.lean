import Homoicon.Kind

/-!
# Faults

A fault is a failed evaluation: its cause, the unit of code it arose near and the label of the
innermost named call it arose in.  Both places are set once, by the innermost call that knows them.
-/

namespace Homoicon

inductive Cause where
  | unboundName (name : String)
  /-- A word bound to the void placeholder was read. -/
  | voidRead (name : String)
  | wrongType (action param : String) (got : Kind)
  /-- The code ended, or met a barrier, where an argument was required. -/
  | noArgument (action param : String)
  | missingLeft (action : String)
  /-- A set-word or set-path with nothing to assign. -/
  | needValue (target : String)
  | badRefinement (detail : String)
  | badRevoke (action refinement : String)
  | badSpec (detail : String)
  /-- A modal parameter without a refinement after it; the action may be unknown. -/
  | modalWithoutRefinement (action : Option String) (param : String)
  | ambiguousInfix (name : String)
  | stackOverflow (depth : Nat)
  | notAction (what : String)
  | badPath (path : String)
  | native (message : String)
  | user (message : String)
  deriving DecidableEq, Inhabited

def Cause.message : Cause → String
  | .unboundName name => name ++ " has no value"
  | .voidRead name => name ++ " is void"
  | .wrongType action param got =>
    action ++ " does not allow " ++ got.name ++ " for its " ++ param ++ " argument"
  | .noArgument action param => action ++ " is missing its " ++ param ++ " argument"
  | .missingLeft action => action ++ " has no value on its left to consume"
  | .needValue target => target ++ " needs a value"
  | .badRefinement detail => "bad refinement: " ++ detail
  | .badRevoke action refinement =>
    action ++ "/" ++ refinement ++ " arguments must be all null or all non-null"
  | .badSpec detail => "bad parameter spec: " ++ detail
  | .modalWithoutRefinement action param =>
    (match action with | some a => a ++ " " | none => "")
      ++ "modal parameter @" ++ param ++ " has no refinement after it"
  | .ambiguousInfix name =>
    "ambiguous infix: " ++ name ++ " deferred while another deferral is pending"
  | .stackOverflow depth => "stack overflow at depth " ++ Nat.repr depth
  | .notAction what => what ++ " is not an action"
  | .badPath path => "cannot evaluate path " ++ path
  | .native message => message
  | .user message => message

structure Fault where
  cause : Cause
  /-- Written form of the unit the fault arose near. -/
  near : Option String := none
  label : Option String := none
  deriving DecidableEq, Inhabited

namespace Fault

def of (cause : Cause) : Fault := { cause }

def nearUnit (f : Fault) (unit : String) : Fault :=
  match f.near with
  | some _ => f
  | none => { f with near := some unit }

def inCall (f : Fault) (label : String) : Fault :=
  match f.label with
  | some _ => f
  | none => { f with label := some label }

/-- The text of a fault: its cause, then the places that are known. -/
def message (f : Fault) : String :=
  f.cause.message
    ++ (match f.near with | some unit => " (near " ++ unit ++ ")" | none => "")
    ++ (match f.label with | some label => " (where " ++ label ++ ")" | none => "")

@[simp] theorem nearUnit_nearUnit (f : Fault) (a b : String) :
    (f.nearUnit a).nearUnit b = f.nearUnit a := by
  cases h : f.near <;> simp [nearUnit, h]

@[simp] theorem cause_nearUnit (f : Fault) (a : String) : (f.nearUnit a).cause = f.cause := by
  cases h : f.near <;> simp [nearUnit, h]

@[simp] theorem cause_inCall (f : Fault) (a : String) : (f.inCall a).cause = f.cause := by
  cases h : f.label <;> simp [inCall, h]

end Fault

end Homoicon
