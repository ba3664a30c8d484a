import Homoicon.Value.Mold

/-!
# Parameter specs

A spec is a block that declares the parameters of an action:

* a leading text is its description, later texts are notes;
* `name`, `'name`, `:name` and `@name` declare a parameter by its role, a block after it its types;
* `/name` declares a refinement, whose arguments are the parameters that follow;
* `<local>` starts the variables of the body;
* `return:` and a block declare the types of the result.
-/

namespace Homoicon

structure Spec where
  description : Option String := none
  params : List Param := []
  returns : Option TypeSet := none
  deriving DecidableEq, Inhabited

namespace Spec

def fault {α : Type} (detail : String) : Except Fault α := .error (.of (.badSpec detail))

/-- The types read so far from a type block. -/
structure TypeEntries where
  types : TypeSet := {}
  named : Bool := false
  variadic : Bool := false

def TypeEntries.add (e : TypeEntries) : Value → Except Fault TypeEntries
  | .word name =>
    match TypeSet.kindsOfWord? name with
    | some kinds => .ok { e with types := e.types.union kinds, named := true }
    | none => fault ("unknown type " ++ name)
  | .tag "opt" => .ok { e with types := { e.types with optional := true } }
  | .tag "end" => .ok { e with types := { e.types with endable := true } }
  | .tag "skip" => .ok { e with types := { e.types with skippable := true } }
  | .tag "..." => .ok { e with variadic := true }
  | .tag other => fault ("unknown type marker <" ++ other ++ ">")
  | other => fault ("bad type entry " ++ other.mold)

/-- The types of a type block and whether it asks for a variadic parameter.  A block that names no
kind accepts any value. -/
def readTypes (items : List Value) : Except Fault (TypeSet × Bool) := do
  let e ← items.foldlM TypeEntries.add {}
  let types := if e.named then e.types else { e.types with kinds := TypeSet.anyValue.kinds }
  return (types, e.variadic)

/-- The variadic form of a role, for the roles that have one. -/
def variadicRole? : Role → Option Role
  | .normal => some (.variadic .evaluate)
  | .hardQuote => some (.variadic .hard)
  | .softQuote => some (.variadic .soft)
  | _ => none

def typedParam (p : Param) (items : List Value) : Except Fault Param := do
  if p.role = .refinement ∨ p.role = .localWord then
    fault (p.name ++ " cannot take a type block")
  else
    let (types, variadic) ← readTypes items
    if variadic then
      match variadicRole? p.role with
      | some role => return { p with types, role }
      | none => fault (p.name ++ " cannot be variadic")
    else return { p with types }

structure Reading where
  spec : Spec := {}
  /-- Whether the next item is the first one. -/
  first : Bool := true
  /-- The refinement that the next parameter belongs to. -/
  owner : Option Nat := none
  /-- Whether plain words declare variables of the body. -/
  locals : Bool := false
  /-- Whether `return:` came just before. -/
  pendingReturn : Bool := false

namespace Reading

def declare (r : Reading) (name : String) (role : Role) : Except Fault Reading :=
  if r.spec.params.any fun p => p.name == name then fault ("duplicate parameter " ++ name)
  else
    let param : Param :=
      if role = .localWord then { name, role, types := TypeSet.empty }
      else { name, role, owner := r.owner }
    .ok { r with spec := { r.spec with params := r.spec.params ++ [param] } }

/-- Declares a refinement.  It may share the name of the modal parameter directly before it. -/
def declareRefinement (r : Reading) (name : String) : Except Fault Reading :=
  let companion := r.spec.params.getLast?.any fun p => p.role == .modal && p.name == name
  if !companion && r.spec.params.any fun p => p.name == name then
    fault ("duplicate parameter /" ++ name)
  else
    .ok { r with
      locals := false
      owner := some r.spec.params.length
      spec := { r.spec with params := r.spec.params ++ [{ name, role := .refinement }] } }

def declareTypes (r : Reading) (items : List Value) : Except Fault Reading :=
  match r.spec.params.getLast? with
  | none => fault "type block before any parameter"
  | some p => do
    let p ← typedParam p items
    return { r with spec := { r.spec with params := r.spec.params.dropLast ++ [p] } }

/-- Reads an item that does not stand directly after `return:`. -/
def readItem (r : Reading) (first : Bool) : Value → Except Fault Reading
  | .text s =>
    if first then .ok { r with spec := { r.spec with description := some s } } else .ok r
  | .tag "local" => .ok { r with locals := true, owner := none }
  | .setWord "return" => .ok { r with pendingReturn := true }
  | .block items => r.declareTypes items
  | .word name => r.declare name (if r.locals then .localWord else .normal)
  | .quoted (.word name) => r.declare name .hardQuote
  | .quoted other => fault ("bad quoted parameter '" ++ other.mold)
  | .getWord name => r.declare name .softQuote
  | .sym (.word name) => r.declare name .modal
  | .sym other => fault ("bad modal parameter @" ++ other.mold)
  | .refinement name => r.declareRefinement name
  | other => fault ("unexpected " ++ other.mold ++ " in spec")

def next (r : Reading) (item : Value) : Except Fault Reading :=
  let pending := r.pendingReturn
  let first := r.first
  let r := { r with first := false, pendingReturn := false }
  match pending, item with
  | true, .block items => do
    let (types, _) ← readTypes items
    return { r with spec := { r.spec with returns := some types } }
  | _, item => r.readItem first item

end Reading

/-- Whether a refinement without arguments follows the parameter at `index`. -/
def hasSwitchAfter (params : List Param) (index : Nat) : Bool :=
  (params[index + 1]?).any fun next =>
    next.role == .refinement && !params.any fun p => p.owner == some (index + 1)

/-- The first modal parameter that lacks a refinement without arguments after it. -/
def unswitchedModal? (params : List Param) : Option Param :=
  (params.zipIdx.find? fun (p, i) => p.role == .modal && !hasSwitchAfter params i).map (·.1)

def read (items : List Value) : Except Fault Spec := do
  let r ← items.foldlM Reading.next {}
  match unswitchedModal? r.spec.params with
  | some p => .error (.of (.modalWithoutRefinement none p.name))
  | none => return r.spec

end Spec

end Homoicon
