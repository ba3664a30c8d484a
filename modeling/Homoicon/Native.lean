import Homoicon.Param

/-!
# Built-in operations

The operations that the evaluator itself implements, by family, and the descriptions under which
they are made available: a name, a parameter spec in source form and, for those that are bound
enfixed, their deferral.  What each operation does is said in the modules under `Evaluate`.
-/

namespace Homoicon

inductive Arithmetic where
  | add | subtract | multiply | divide | negate
  deriving DecidableEq, Inhabited

inductive Comparison where
  | equal (negated : Bool)
  | lesser (orEqual : Bool)
  | greater (orEqual : Bool)
  | not
  deriving DecidableEq, Inhabited

inductive Control where
  | ifTrue | either | loop | whileTrue | breakLoop | continueLoop | catchThrow | throwValue
  | trap | fail | halt | thenBranch | elseBranch | alsoBranch | accept | reject
  deriving DecidableEq, Inhabited

/-- Evaluation of code as data, and access to variables. -/
inductive Access where
  | doSource | reduce | quote | the | comment | elide | get | set | typeOf | isNull | print
  | assignDefault
  deriving DecidableEq, Inhabited

/-- Making actions from actions, and pulling from varargs. -/
inductive Generator where
  | func | specialize | adapt | enfix | take | isTail | varargs
  deriving DecidableEq, Inhabited

/-- Operations that a host adds: they show a call from the inside or redirect it. -/
inductive HostOperation where
  | echo
  | double | joinText | frameHere | varargsFrame | callInfo | requestHalt | rawCall | redoInto
  | accepts
  deriving DecidableEq, Inhabited

/-- An operation implemented by the evaluator. -/
inductive Operation where
  | arithmetic (op : Arithmetic)
  | comparison (op : Comparison)
  | control (op : Control)
  | access (op : Access)
  | generator (op : Generator)
  | host (op : HostOperation)
  deriving DecidableEq, Inhabited

/-- A built-in operation as it is made available to code. -/
structure Native where
  name : String
  spec : String
  /-- The deferral of an operation that is bound enfixed. -/
  enfix : Option Deferral := none
  operation : Operation
  deriving DecidableEq, Inhabited

end Homoicon
