import Homoicon.Eval
import Homoicon.Spec

/-!
# Registries

A registry lists built-in operations and the enfixed spellings of some of them.  Installing it
defines the constants, the datatypes, the operations and the spellings in a scope.
-/

namespace Homoicon

/-- The action of a built-in operation, with the identity of its parameter list. -/
def Native.action (n : Native) (signature : Identity) : Except Fault Action := do
  match Source.scan n.spec with
  | .error e => .error (.of (.badSpec (n.name ++ ": " ++ e.message)))
  | .ok items =>
    let spec ← Spec.read items
    let action : Action :=
      { label := some n.name, params := spec.params, signature, dispatcher := .native n
        exemplar := none, enfixed := false, deferral := .none, description := spec.description }
    match n.enfix with
    | some deferral => action.enfixWith deferral
    | none => return action

def Native.defineIn (n : Native) (scope : ScopeId) : Eval Unit := do
  let signature ← Eval.freshIdentity
  let action ← Eval.ofExcept (n.action signature)
  let id ← Eval.freshIdentity
  Eval.define scope n.name (.action id action)

structure Operator where
  symbol : String
  target : String
  deriving DecidableEq, Inhabited

/-- Built-in operations and their enfixed spellings. -/
structure Registry where
  natives : List Native := []
  operators : List Operator := []
  deriving DecidableEq, Inhabited

namespace Registry

/-- Adds an operation; a later one of the same name takes the place of an earlier one. -/
def register (r : Registry) (n : Native) : Registry :=
  { r with natives := (r.natives.filter fun old => old.name != n.name) ++ [n] }

def operator (r : Registry) (symbol target : String) : Registry :=
  { r with operators := r.operators ++ [⟨symbol, target⟩] }

def get? (r : Registry) (name : String) : Option Native :=
  r.natives.find? fun n => n.name == name

def size (r : Registry) : Nat := r.natives.length

def defineConstants (scope : ScopeId) : Eval Unit := do
  Eval.define scope "null" .null
  Eval.define scope "true" (.logic true)
  Eval.define scope "false" (.logic false)
  (Kind.all.filter (· != .null)).forM fun k => Eval.define scope k.name (.datatype k)

/-- Defines an enfixed spelling of an operation that the scope binds. -/
def defineOperator (scope : ScopeId) (o : Operator) : Eval Unit := do
  match ← Eval.lookup scope o.target with
  | some (.action _ a) =>
    let enfixed ← Eval.ofExcept (a.enfixWith .none)
    let id ← Eval.freshIdentity
    Eval.define scope o.symbol (.action id { enfixed with label := some o.symbol })
  | _ => Eval.failWith (.notAction o.target)

def install (r : Registry) (scope : ScopeId) : Eval Unit := do
  defineConstants scope
  r.natives.forM fun n => n.defineIn scope
  r.operators.forM (defineOperator scope)
  Eval.note (.installed r.natives.length r.operators.length)

end Registry

end Homoicon
