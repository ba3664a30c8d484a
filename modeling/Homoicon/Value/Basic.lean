import Homoicon.Fault
import Homoicon.Native

/-!
# Values and actions

A value is a unit of code and a result at once.  Scopes, feeds and frames are shared and change
over time, so a value refers to them by number; everything else a value holds is immutable.

Actions, varargs and errors are equal only to themselves, so they carry an identity: a number that
is handed out once.  The parameter list of an action has an identity too, which its
specializations and adaptations share.
-/

namespace Homoicon

abbrev ScopeId := Nat

abbrev FeedId := Nat

/-- Number of one activation; no two activations share one. -/
abbrev FrameId := Nat

/-- Identity of a value that is equal only to itself. -/
abbrev Identity := Nat

structure FrameRef where
  id : FrameId
  label : String
  deriving DecidableEq, Inhabited

/-- The capability to pull values from a feed, one at a time. -/
structure Varargs where
  feed : FeedId
  pull : Pull
  param : Param
  label : String
  /-- Frame of the call that made it, if it came from a callsite. -/
  frame : Option FrameRef
  deriving DecidableEq, Inhabited

mutual

/-- A unit of code, or the result of evaluating one. -/
inductive Value where
  | null
  /-- The placeholder `~` of what is explicitly undefined. -/
  | void
  /-- The placeholder `_`. -/
  | blank
  | logic (b : Bool)
  | integer (n : Int64)
  | decimal (x : Float)
  | text (s : String)
  | tag (s : String)
  /-- Written `/name`. -/
  | refinement (name : String)
  | block (items : List Value)
  | datatype (k : Kind)
  | action (id : Identity) (a : Action)
  | varargs (id : Identity) (v : Varargs)
  | frame (f : FrameRef)
  | error (id : Identity) (f : Fault)
  | word (name : String)
  /-- Written `name:`. -/
  | setWord (name : String)
  /-- Written `:name`. -/
  | getWord (name : String)
  /-- The silenced reference, written `@payload`. -/
  | sym (payload : Value)
  /-- Written `'payload`. -/
  | quoted (payload : Value)
  | path (items : List Value)
  | setPath (items : List Value)
  | getPath (items : List Value)
  | group (items : List Value)
  | comma

/-- What can be invoked: parameters and what to do once their slots are filled. -/
structure Action where
  label : Option String
  params : List Param
  signature : Identity
  dispatcher : Dispatcher
  /-- Slots filled beforehand by a specialization, one entry per parameter. -/
  exemplar : Option (List (Option Value))
  enfixed : Bool
  deferral : Deferral
  description : Option String

inductive Dispatcher where
  | native (n : Native)
  /-- A body run in a child of the scope it was made in. -/
  | interpreted (body : List Value) (scope : ScopeId)
  /-- A prelude run against the filled slots before going on as `adaptee`. -/
  | adapted (prelude : List Value) (scope : ScopeId) (adaptee : Action)
  /-- Definitional return to one activation. -/
  | returnTo (target : FrameId)

end

instance : Inhabited Value := ⟨.null⟩

instance : Inhabited Dispatcher := ⟨.returnTo 0⟩

instance : Inhabited Action :=
  ⟨{ label := none, params := [], signature := 0, dispatcher := default, exemplar := none,
     enfixed := false, deferral := .none, description := none }⟩

mutual

/-- How many adaptations lie one over another at the top of an action. -/
def Action.adaptations : Action → Nat
  | .mk _ _ _ dispatcher _ _ _ _ => dispatcher.adaptations

/-- How many adaptations lie one over another at the top of a dispatcher. -/
def Dispatcher.adaptations : Dispatcher → Nat
  | .adapted _ _ adaptee => adaptee.adaptations + 1
  | _ => 0

end

namespace Value

def kind : Value → Kind
  | null => .null
  | void => .void
  | blank => .blank
  | logic _ => .logic
  | integer _ => .integer
  | decimal _ => .decimal
  | text _ => .text
  | tag _ => .tag
  | refinement _ => .refinement
  | block _ => .block
  | datatype _ => .datatype
  | action _ _ => .action
  | varargs _ _ => .varargs
  | frame _ => .frame
  | error _ _ => .error
  | word _ => .word
  | setWord _ => .setWord
  | getWord _ => .getWord
  | sym _ => .sym
  | quoted _ => .quoted
  | path _ => .path
  | setPath _ => .setPath
  | getPath _ => .getPath
  | group _ => .group
  | comma => .comma

def isInert (v : Value) : Bool := v.kind.isInert

def isNull : Value → Bool
  | null => true
  | _ => false

/-- Conditional truth: null, blank, void and `false` are the false values. -/
def isTruthy : Value → Bool
  | null | blank | void | logic false => false
  | _ => true

def wordName? : Value → Option String
  | word name | setWord name | getWord name | refinement name => some name
  | _ => none

def items? : Value → Option (List Value)
  | block items | group items | path items | setPath items | getPath items => some items
  | _ => none

/-- The value in a form that evaluates to it: inert values as they are, all others quoted. -/
def quotedIfNeeded (v : Value) : Value := if v.isInert then v else .quoted v

theorem isNull_iff {v : Value} : v.isNull = true ↔ v = .null := by
  cases v <;> simp [isNull]

end Value

def TypeSet.accepts (t : TypeSet) (v : Value) : Bool := t.acceptsKind v.kind

theorem TypeSet.accepts_anything (v : Value) : TypeSet.anything.accepts v = true := by
  show TypeSet.anything.acceptsKind v.kind = true
  cases v.kind <;> rfl

namespace Action

/-- Position of the first parameter that is not a variable of the body. -/
def firstArgument? (a : Action) : Option Nat :=
  a.params.findIdx? fun p => p.role != .localWord && p.role != .returns

def firstParam? (a : Action) : Option Param := a.firstArgument?.bind (a.params[·]?)

/-- Whether the action is enfixed and takes its left operand as an unevaluated unit. -/
def quotesFirst (a : Action) : Bool :=
  a.enfixed && a.firstParam?.any fun p => p.role.isQuoting

/-- Whether an enfixed action can run without a left operand. -/
def toleratesAbsentLeft (a : Action) : Bool :=
  a.firstParam?.any fun p => p.types.endable

def findParam? (a : Action) (name : String) : Option Nat :=
  a.params.findIdx? fun p => p.name == name

def findRefinement? (a : Action) (name : String) : Option Nat :=
  a.params.findIdx? fun p => p.role == .refinement && p.name == name

/-- Whether the parameter at `index` is a word of interpreted bodies.  The refinement that shares
the name of the modal parameter before it has its slot only. -/
def bindsWord (a : Action) (index : Nat) : Bool :=
  match a.params[index]? with
  | none => false
  | some p =>
    let companion := p.role == .refinement && index != 0 &&
      (a.params[index - 1]?).any fun prev => prev.role == .modal && prev.name == p.name
    !companion

/-- Positions of the parameters that belong to the refinement at `index`. -/
def refinementArguments (a : Action) (index : Nat) : List Nat :=
  a.params.zipIdx.filterMap fun (p, i) => if p.owner = some index then some i else none

/-- The value that a specialization gave to the slot at `index`. -/
def preset? (a : Action) (index : Nat) : Option Value :=
  a.exemplar.bind fun slots => (slots[index]?).join

def labelOr (a : Action) (fallback : String) : String := a.label.getD fallback

/-- The enfixed form of an action, which needs an argument to take from its left. -/
def enfixWith (a : Action) (deferral : Deferral) : Except Fault Action :=
  if a.firstParam?.any fun p => p.role != .refinement then
    .ok { a with enfixed := true, deferral }
  else
    .error (.of (.badSpec (a.labelOr "action" ++ " needs a leading argument to be enfixed")))

/-- The action with some slots filled beforehand; slots filled earlier are kept. -/
def specialized (a : Action) (slots : List (Option Value)) : Action :=
  { a with exemplar := some (slots.zipIdx.map fun (slot, i) => slot.or (a.preset? i)) }

end Action

end Homoicon
