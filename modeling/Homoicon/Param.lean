import Homoicon.Kind

/-!
# Parameters

A parameter has a name, a role that says how its argument is taken, the set of kinds its argument
may have, and, when it is an argument of a refinement, the position of that refinement.
-/

namespace Homoicon

/-- How an enfixed action treats a call to its left that is still gathering arguments. -/
inductive Deferral where
  /-- Take the left operand as soon as there is one. -/
  | none
  /-- Let the enclosing call finish and take its result. -/
  | defer
  /-- Wait until no call is gathering an argument. -/
  | postpone
  deriving DecidableEq, Inhabited

/-- How a variadic parameter evaluates each value it pulls. -/
inductive Pull where
  | evaluate | hard | soft
  deriving DecidableEq, Inhabited

/-- How the slot of a parameter is filled. -/
inductive Role where
  /-- By evaluating one expression at the callsite. -/
  | normal
  | hardQuote
  /-- By the next unit as it stands, unless it asks to be evaluated. -/
  | softQuote
  /-- Like `normal`; a silenced reference also switches on the refinement that follows. -/
  | modal
  /-- By a capability to pull any number of arguments. -/
  | variadic (pull : Pull)
  /-- A variable of the body, void at first. -/
  | localWord
  /-- The definitional `return` of one activation. -/
  | returns
  | refinement
  deriving DecidableEq, Inhabited

def Role.takesArgument : Role → Bool
  | .normal | .hardQuote | .softQuote | .modal | .variadic _ => true
  | .localWord | .returns | .refinement => false

def Role.isQuoting : Role → Bool
  | .hardQuote | .softQuote => true
  | _ => false

/-- The kinds a parameter accepts, with the markers `<opt>`, `<end>` and `<skip>`. -/
structure TypeSet where
  kinds : List Kind := []
  optional : Bool := false
  endable : Bool := false
  skippable : Bool := false
  deriving DecidableEq, Inhabited

namespace TypeSet

def empty : TypeSet := {}

def anyValue : TypeSet :=
  { kinds := Kind.all.filter fun k => k != .null && k != .void }

def anything : TypeSet := { kinds := Kind.all, optional := true }

def contains (t : TypeSet) (k : Kind) : Bool := t.kinds.contains k

/-- Whether a value of kind `k` is accepted: null also under `<opt>`. -/
def acceptsKind (t : TypeSet) (k : Kind) : Bool :=
  if k = .null then t.optional || t.contains .null else t.contains k

def union (t : TypeSet) (kinds : List Kind) : TypeSet :=
  { t with kinds := t.kinds ++ kinds.filter fun k => !t.contains k }

/-- The kinds that a word of a type block stands for: a family of kinds, or one kind. -/
def kindsOfWord? (name : String) : Option (List Kind) :=
  match name with
  | "any-value!" => some anyValue.kinds
  | "any-word!" => some [.word, .setWord, .getWord, .refinement]
  | "any-number!" | "number!" => some [.integer, .decimal]
  | "any-array!" => some [.block, .group, .path, .setPath, .getPath]
  | "any-path!" => some [.path, .setPath, .getPath]
  | _ => (Kind.ofName? name).map fun k => [k]

theorem contains_iff {t : TypeSet} {k : Kind} : t.contains k = true ↔ k ∈ t.kinds := by
  simp [contains]

theorem contains_union {t : TypeSet} {ks : List Kind} {k : Kind} :
    (t.union ks).contains k = true ↔ t.contains k = true ∨ k ∈ ks := by
  simp only [contains_iff, union, List.mem_append, List.mem_filter, Bool.not_eq_true']
  constructor
  · rintro (h | ⟨h, _⟩)
    · exact .inl h
    · exact .inr h
  · rintro (h | h)
    · exact .inl h
    · by_cases hk : k ∈ t.kinds
      · exact .inl hk
      · exact .inr ⟨h, by simpa [contains] using hk⟩

end TypeSet

structure Param where
  name : String
  role : Role
  types : TypeSet := TypeSet.anyValue
  /-- Position of the refinement this parameter is an argument of. -/
  owner : Option Nat := none
  deriving DecidableEq, Inhabited

/-- A null in this parameter's slot may stand for an absent argument. -/
def Param.mayBeAbsent (p : Param) : Bool :=
  p.owner.isSome || p.types.endable || p.types.skippable

end Homoicon
