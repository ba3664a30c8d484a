import Homoicon.Registry

/-!
# The standard library

The forty-seven operations and ten enfixed spellings that every session starts with.
-/

namespace Homoicon.Registry

def numbersSpec : String := "value1 [any-number!] value2 [any-number!]"

/-- The parameters of operations on two values that are ordered. -/
def orderedSpec : String := "value1 [any-number! text!] value2 [any-number! text!]"

/-- The parameters of operations that branch on their left operand. -/
def branchSpec : String := "optional [<opt> any-value! void!] branch [block!]"

def arithmeticNatives : List Native :=
  [ { name := "add", spec := numbersSpec, operation := .arithmetic .add },
    { name := "subtract", spec := numbersSpec, operation := .arithmetic .subtract },
    { name := "multiply", spec := numbersSpec, operation := .arithmetic .multiply },
    { name := "divide", spec := numbersSpec, operation := .arithmetic .divide },
    { name := "negate", spec := "number [any-number!]", operation := .arithmetic .negate } ]

def comparisonNatives : List Native :=
  [ { name := "equal?", spec := "value1 [<opt> any-value!] value2 [<opt> any-value!]",
      operation := .comparison (.equal false) },
    { name := "not-equal?", spec := "value1 [<opt> any-value!] value2 [<opt> any-value!]",
      operation := .comparison (.equal true) },
    { name := "lesser?", spec := orderedSpec, operation := .comparison (.lesser false) },
    { name := "lesser-or-equal?", spec := orderedSpec, operation := .comparison (.lesser true) },
    { name := "greater?", spec := orderedSpec, operation := .comparison (.greater false) },
    { name := "greater-or-equal?", spec := orderedSpec, operation := .comparison (.greater true) },
    { name := "not", spec := "value [<opt> any-value!]", operation := .comparison .not } ]

def controlNatives : List Native :=
  [ { name := "if",
      spec := "\"Run the branch when the condition is truthy, else null\" "
        ++ "condition [<opt> any-value!] branch [block!]",
      operation := .control .ifTrue },
    { name := "either",
      spec := "condition [<opt> any-value!] true-branch [block!] false-branch [block!]",
      operation := .control .either },
    { name := "loop", spec := "count [integer!] body [block!]", operation := .control .loop },
    { name := "while", spec := "condition [block!] body [block!]",
      operation := .control .whileTrue },
    { name := "break", spec := "", operation := .control .breakLoop },
    { name := "continue", spec := "", operation := .control .continueLoop },
    { name := "catch", spec := "block [block!] /name names [word! block!]",
      operation := .control .catchThrow },
    { name := "throw", spec := "value [<opt> any-value!] /name word [word!]",
      operation := .control .throwValue },
    { name := "trap",
      spec := "\"Evaluate a block, returning the error it raised or null\" block [block!]",
      operation := .control .trap },
    { name := "fail", spec := "reason [text! error!]", operation := .control .fail },
    { name := "halt", spec := "", operation := .control .halt },
    { name := "then", spec := branchSpec, enfix := some .defer, operation := .control .thenBranch },
    { name := "else", spec := branchSpec, enfix := some .defer, operation := .control .elseBranch },
    { name := "also", spec := branchSpec, enfix := some .postpone,
      operation := .control .alsoBranch },
    { name := Signal.acceptName, spec := "value [<opt> any-value!]",
      operation := .control .accept },
    { name := Signal.rejectName, spec := "", operation := .control .reject } ]

def accessNatives : List Native :=
  [ { name := "do",
      spec := "\"Evaluate a block, group or source text\" source [block! group! text!]",
      operation := .access .doSource },
    { name := "reduce", spec := "block [block!]", operation := .access .reduce },
    { name := "quote", spec := "'value [any-value!]", operation := .access .quote },
    { name := "the", spec := "'value [any-value!]", operation := .access .the },
    { name := "comment", spec := "'discarded [block! text! any-value!]",
      operation := .access .comment },
    { name := "elide", spec := "discarded [<opt> any-value! void!]", operation := .access .elide },
    { name := "get", spec := "source [word! get-word! path!]", operation := .access .get },
    { name := "set", spec := "target [word! set-word!] value [<opt> any-value!]",
      operation := .access .set },
    { name := "type-of", spec := "value [<opt> any-value! void!]", operation := .access .typeOf },
    { name := "null?", spec := "value [<opt> any-value! void!]", operation := .access .isNull },
    { name := "print", spec := "line [<opt> any-value!]", operation := .access .print },
    { name := "default", spec := "'target [set-word! set-path!] branch [block!]",
      enfix := some .none, operation := .access .assignDefault } ]

def generatorNatives : List Native :=
  [ { name := "func", spec := "spec [block!] body [block!]", operation := .generator .func },
    { name := "specialize", spec := "action [action!] def [block!]",
      operation := .generator .specialize },
    { name := "adapt", spec := "action [action!] prelude [block!]",
      operation := .generator .adapt },
    { name := "enfix", spec := "action [action!] /defer /postpone",
      operation := .generator .enfix },
    { name := "take", spec := "source [varargs!]", operation := .generator .take },
    { name := "tail?", spec := "source [varargs! block!]", operation := .generator .isTail },
    { name := "varargs", spec := "block [block!]", operation := .generator .varargs } ]

def standardOperators : List Operator :=
  [ ⟨"+", "add"⟩, ⟨"-", "subtract"⟩, ⟨"*", "multiply"⟩, ⟨"/", "divide"⟩,
    ⟨"=", "equal?"⟩, ⟨"<>", "not-equal?"⟩, ⟨"<", "lesser?"⟩, ⟨"<=", "lesser-or-equal?"⟩,
    ⟨">", "greater?"⟩, ⟨">=", "greater-or-equal?"⟩ ]

def standard : Registry :=
  { natives := arithmeticNatives ++ comparisonNatives ++ controlNatives ++ accessNatives
      ++ generatorNatives
    operators := standardOperators }

def echo (name spec : String) (enfix : Option Deferral) : Native :=
  { name, spec, enfix, operation := .host .echo }

def hostNatives : List Native :=
  [ { name := "double", spec := "value [integer!]", operation := .host .double },
    { name := "join-text", spec := "left [text!] right [text!] /with sep [text!]",
      operation := .host .joinText },
    { name := "frame-here", spec := "a [<opt> any-value!] /with b [any-value!]",
      operation := .host .frameHere },
    { name := "varargs-frame", spec := "v [varargs!]", operation := .host .varargsFrame },
    { name := "call-info", spec := "/loud", operation := .host .callInfo },
    { name := "request-halt", spec := "", operation := .host .requestHalt },
    { name := "raw-call",
      spec := "value1 [<opt> any-value! void!] value2 [<opt> any-value! void!] "
        ++ "value3 [<opt> any-value! void!] 'which [word!] /checked",
      operation := .host .rawCall },
    { name := "redo-into", spec := "action [action!]", operation := .host .redoInto },
    { name := "accepts?",
      spec := "action [action!] index [integer!] value [<opt> any-value! void!]",
      operation := .host .accepts } ]

end Homoicon.Registry
