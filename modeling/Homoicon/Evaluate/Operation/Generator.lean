import Homoicon.Evaluate.Operation.Slots
import Homoicon.Evaluate.Varargs
import Homoicon.Spec

/-!
# Making actions

`func` makes an action from a spec and a body, `specialize` fills slots beforehand, `adapt` puts a
prelude in front, and `enfix` lets an action take an operand from its left.
-/

namespace Homoicon

/-- The parameters of a function: those of its spec and the definitional `return`. -/
def functionParams (s : Spec) : Except Fault (List Param) :=
  if s.params.any fun p => p.name == "return" then
    .error (.of (.badSpec "return is reserved in func specs"))
  else
    .ok (s.params ++
      [{ name := "return", role := .returns, types := s.returns.getD TypeSet.anything }])

/-- Whether a specialization can fill the slot of the parameter at `index`. -/
def Action.isSpecializable (a : Action) (p : Param) (index : Nat) : Bool :=
  p.role != .localWord && p.role != .returns && a.bindsWord index

/-- The slot that a specialization makes of the value a parameter was given: none if it was given
none, a switch for a refinement, else the value, which must be acceptable. -/
def presetSlot (label : String) (p : Param) : Option Value → Except Fault (Option Value)
  | none | some .void => .ok none
  | some v =>
    if p.role = .refinement then .ok (some (.logic v.isTruthy))
    else if (v.isNull && p.owner.isSome) || p.types.accepts v then .ok (some v)
    else .error (.of (.wrongType label p.name v.kind))

/-- The slot that a specialization makes of the word of a parameter. -/
def presetOf (a : Action) (scope : ScopeId) (p : Param) (index : Nat) : Eval (Option Value) :=
  if a.isSpecializable p index then do
    let v ← Eval.lookup scope p.name
    Eval.ofExcept (presetSlot (a.labelOr "specialization") p v)
  else return none

/-- The slots that a specialization makes of the words of its scope, for the given parameters. -/
def presetSlots (a : Action) (scope : ScopeId) :
    List (Param × Nat) → Eval (List (Option Value))
  | [] => return []
  | (p, index) :: rest => do
    let slot ← presetOf a scope p index
    let slots ← presetSlots a scope rest
    return slot :: slots

/-- Defines the parameters of an action that a specialization can fill, as they stand. -/
def definePresets (a : Action) (scope : ScopeId) : List (Param × Nat) → Eval Unit
  | [] => return ()
  | (p, index) :: rest => do
    Eval.onlyIf (a.isSpecializable p index)
      (Eval.define scope p.name ((a.preset? index).getD .void))
    definePresets a scope rest

def requestedDeferral (c : CallState) : Except Fault Deferral :=
  match c.uses "defer", c.uses "postpone" with
  | false, false => .ok .none
  | true, false => .ok .defer
  | false, true => .ok .postpone
  | true, true =>
    .error (.of (.badRefinement "enfix takes only one of /defer and /postpone"))

def newAction (a : Action) : Eval Bounce := do
  let id ← Eval.freshIdentity
  return .out (.action id a)

/-- Runs an operation that makes an action or pulls from varargs. -/
def Generator.run (op : Generator) (ev : Evaluator) (c : Call) : Eval Bounce := do
  match op with
  | .func =>
    let items ← c.block 0
    let body ← c.block 1
    let spec ← Eval.ofExcept (Spec.read items)
    let params ← Eval.ofExcept (functionParams spec)
    let scope ← c.scope
    let signature ← Eval.freshIdentity
    Eval.note (.functionCreated params.length)
    newAction
      { label := none, params, signature, dispatcher := .interpreted body scope, exemplar := none
        enfixed := false, deferral := .none, description := spec.description }
  | .specialize =>
    let action ← c.action 0
    let definition ← c.block 1
    let outer ← c.scope
    let scope ← Eval.newScope (some outer)
    definePresets action scope action.params.zipIdx
    let _ ← ev.runUnits definition scope
    let slots ← presetSlots action scope action.params.zipIdx
    newAction (action.specialized slots)
  | .adapt =>
    let adaptee ← c.action 0
    let prelude ← c.block 1
    let scope ← c.scope
    newAction
      { adaptee with
        label := none, enfixed := false, deferral := .none
        dispatcher := .adapted prelude scope adaptee }
  | .enfix =>
    let action ← c.action 0
    let deferral ← Eval.ofExcept (requestedDeferral c.state)
    let enfixed ← Eval.ofExcept (action.enfixWith deferral)
    newAction enfixed
  | .take =>
    match c.slot 0 with
    | .varargs _ v =>
      let value ← ev.takeFrom v
      return .out value
    | _ => c.mismatch 0
  | .isTail =>
    match c.slot 0 with
    | .varargs _ v =>
      let tail ← v.isTail
      return .out (.logic tail)
    | .block items => return .out (.logic items.isEmpty)
    | _ => c.mismatch 0
  | .varargs =>
    let items ← c.block 0
    let scope ← c.scope
    let v ← Evaluator.blockVarargs items scope
    return .out v

end Homoicon
