import Homoicon.Value.Basic

/-!
# Scopes

Scopes bind names to values and form chains: a name that a scope does not bind is looked up in its
parent.  All scopes live in one heap, where a scope is made after its parent and so has a larger
number.  Every operation is said through the chain of a scope, from the scope itself outward.
-/

namespace Homoicon

/-- Names with their values; the first entry of a name counts. -/
abbrev Bindings := List (String × Value)

namespace Bindings

def get? (name : String) : Bindings → Option Value
  | [] => none
  | (n, v) :: rest => if n = name then some v else get? name rest

/-- The bindings with `name` bound to `v`; a new name comes last. -/
def put (name : String) (v : Value) : Bindings → Bindings
  | [] => [(name, v)]
  | (n, w) :: rest => if n = name then (n, v) :: rest else (n, w) :: put name v rest

def names (b : Bindings) : List String := b.map (·.1)

@[simp] theorem get?_put_self (name : String) (v : Value) (b : Bindings) :
    (b.put name v).get? name = some v := by
  induction b with
  | nil => simp [put, get?]
  | cons e rest ih =>
    rcases e with ⟨n, w⟩
    by_cases h : n = name <;> simp [put, get?, h, ih]

theorem get?_put_of_ne {name other : String} (h : other ≠ name) (v : Value) (b : Bindings) :
    (b.put name v).get? other = b.get? other := by
  induction b with
  | nil => simp [put, get?, Ne.symm h]
  | cons e rest ih =>
    rcases e with ⟨n, w⟩
    by_cases hn : n = name
    · subst hn
      simp [put, get?, Ne.symm h]
    · by_cases ho : n = other
      · subst ho
        simp [put, get?, h]
      · simp [put, get?, hn, ho, ih]

theorem get?_isSome_iff {name : String} {b : Bindings} :
    (b.get? name).isSome = true ↔ name ∈ b.names := by
  induction b with
  | nil => simp [get?, names]
  | cons e rest ih =>
    rcases e with ⟨n, w⟩
    by_cases h : n = name
    · simp [get?, names, h]
    · simpa [get?, names, h, Ne.symm h] using ih

end Bindings

structure Scope where
  bindings : Bindings := []
  parent : Option ScopeId := none

instance : Inhabited Scope := ⟨{}⟩

structure Scopes where
  cells : Array Scope := #[]

instance : Inhabited Scopes := ⟨{}⟩

namespace Scopes

/-- The scope of a given number, an empty one if there is none. -/
def scope (h : Scopes) (s : ScopeId) : Scope := h.cells.getD s {}

def bindings (h : Scopes) (s : ScopeId) : Bindings := (h.scope s).bindings

def next (h : Scopes) : ScopeId := h.cells.size

/-- The heap with a new empty scope, under a parent or as a root. -/
def make (h : Scopes) (parent : Option ScopeId) : Scopes := ⟨h.cells.push { parent }⟩

def chainFrom (h : Scopes) : Nat → ScopeId → List ScopeId
  | 0, _ => []
  | fuel + 1, s =>
    s :: match (h.scope s).parent with
      | some p => h.chainFrom fuel p
      | none => []

/-- A scope and the scopes around it, inside out.  A parent has a smaller number than its child,
so there are at most `s + 1` of them. -/
def chain (h : Scopes) (s : ScopeId) : List ScopeId := h.chainFrom (s + 1) s

def bindsLocally (h : Scopes) (s : ScopeId) (name : String) : Bool :=
  ((h.bindings s).get? name).isSome

def binder? (h : Scopes) (s : ScopeId) (name : String) : Option ScopeId :=
  (h.chain s).find? fun t => h.bindsLocally t name

/-- The value of a name: the binding of the nearest scope of the chain that has one. -/
def lookup (h : Scopes) (s : ScopeId) (name : String) : Option Value :=
  (h.chain s).findSome? fun t => (h.bindings t).get? name

def define (h : Scopes) (s : ScopeId) (name : String) (v : Value) : Scopes :=
  ⟨h.cells.modify s fun c => { c with bindings := c.bindings.put name v }⟩

/-- Assigns to the nearest scope that binds the name, or defines it in `s`. -/
def assign (h : Scopes) (s : ScopeId) (name : String) (v : Value) : Scopes :=
  h.define ((h.binder? s name).getD s) name v

/-- Every name visible from a scope, once each, those of inner scopes first. -/
def names (h : Scopes) (s : ScopeId) : List String :=
  ((h.chain s).flatMap fun t => (h.bindings t).names).eraseDups

end Scopes

end Homoicon
