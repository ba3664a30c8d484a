/-!
# Kinds of values

Every value of the language has one of twenty-five kinds.  A kind has a name, which the language
spells as a datatype, and is either inert (its values evaluate to themselves) or has evaluator
behaviour of its own.
-/

namespace Homoicon

inductive Kind where
  | null | void | blank | logic | integer | decimal | text | tag | refinement | block | datatype
  | action | varargs | frame | error | word | setWord | getWord | sym | quoted
  | path | setPath | getPath | group | comma
  deriving DecidableEq, Inhabited

namespace Kind

def all : List Kind :=
  [null, void, blank, logic, integer, decimal, text, tag, refinement, block, datatype,
   action, varargs, frame, error, word, setWord, getWord, sym, quoted,
   path, setPath, getPath, group, comma]

def name : Kind → String
  | null => "null"
  | void => "void!"
  | blank => "blank!"
  | logic => "logic!"
  | integer => "integer!"
  | decimal => "decimal!"
  | text => "text!"
  | tag => "tag!"
  | refinement => "refinement!"
  | block => "block!"
  | datatype => "datatype!"
  | action => "action!"
  | varargs => "varargs!"
  | frame => "frame!"
  | error => "error!"
  | word => "word!"
  | setWord => "set-word!"
  | getWord => "get-word!"
  | sym => "sym!"
  | quoted => "quoted!"
  | path => "path!"
  | setPath => "set-path!"
  | getPath => "get-path!"
  | group => "group!"
  | comma => "comma!"

def ofName? (s : String) : Option Kind := all.find? fun k => k.name == s

/-- Inert kinds evaluate to themselves.  An action is not inert: met in code, it is invoked. -/
def isInert : Kind → Bool
  | action | word | setWord | getWord | sym | quoted | path | setPath | getPath | group | comma =>
    false
  | _ => true

theorem mem_all (k : Kind) : k ∈ all := by cases k <;> decide

theorem ofName?_name (k : Kind) : ofName? k.name = some k := by cases k <;> decide

end Kind

end Homoicon
