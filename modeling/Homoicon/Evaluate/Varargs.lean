import Homoicon.Evaluate.Escape

/-!
# Pulling from varargs

Every pull takes one value from the feed of the varargs, as the role of its parameter says, and
checks it against the types of that parameter.  At the tail a pull gives null.
-/

namespace Homoicon

def Varargs.isTail (v : Varargs) : Eval Bool := Eval.atArgumentEnd v.feed

namespace Evaluator

/-- Takes one value from the feed of a varargs that is not at its tail. -/
def pullValue (ev : Evaluator) (v : Varargs) : Eval (Option Value) := do
  match v.pull with
  | .evaluate => ev.evalExpression v.feed true
  | .hard =>
    let unit ← Eval.peek v.feed
    Eval.advance v.feed
    return unit
  | .soft =>
    match ← Eval.peek v.feed with
    | none => return none
    | some unit =>
      Eval.advance v.feed
      ev.softEscape v.feed unit

def takeFrom (ev : Evaluator) (v : Varargs) : Eval Value := do
  if ← v.isTail then return .null
  else
    let pulled ← ev.pullValue v
    let value := pulled.getD .null
    if !value.isNull && !v.param.types.accepts value then
      Eval.failWith (.wrongType v.label v.param.name value.kind)
    else return value

/-- Varargs over the expressions of a block, evaluated as they are taken. -/
def blockVarargs (items : List Value) (scope : ScopeId) : Eval Value := do
  let feed ← Eval.newFeed items scope
  let id ← Eval.freshIdentity
  let param : Param :=
    { name := "block", role := .variadic .evaluate
      types := { TypeSet.anyValue with optional := true } }
  return .varargs id { feed, pull := .evaluate, param, label := "varargs", frame := none }

end Evaluator

end Homoicon
