import Homoicon.Evaluate.Path

/-!
# Soft quoting and silenced references

A softly quoted unit stands for itself unless it is a group, a get-word or a get-path, which are
evaluated.  A silenced reference gives the value of what it names without calling it.
-/

namespace Homoicon.Evaluator

def softEscape (ev : Evaluator) (feed : FeedId) : Value → Eval (Option Value)
  | .group items => do
    let scope ← Eval.scopeOf feed
    ev.runUnits items scope
  | .getWord name => do
    let v ← Eval.resolveGet feed name
    return some v
  | .getPath items => do
    let v ← ev.evalPathValue feed items
    return some v
  | other => return some other

def evalSilenced (ev : Evaluator) (feed : FeedId) : Value → Eval (Option Value)
  | .word name => do
    let v ← Eval.resolveGet feed name
    return some v
  | .group items => do
    let scope ← Eval.scopeOf feed
    ev.runUnits items scope
  | .path items | .getPath items => do
    let v ← ev.evalPathValue feed items
    return some v
  | other => return some other

end Homoicon.Evaluator
