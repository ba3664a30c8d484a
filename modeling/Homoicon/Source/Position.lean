/-!
# Positions in source text and scan errors

Lines and columns count from one, and a column counts characters.
-/

namespace Homoicon.Source

structure Position where
  line : Nat := 1
  column : Nat := 1
  deriving DecidableEq, Inhabited

def Position.after (p : Position) (c : Char) : Position :=
  if c = '\n' then ⟨p.line + 1, 1⟩ else ⟨p.line, p.column + 1⟩

def Position.afterAll (p : Position) (cs : List Char) : Position := cs.foldl Position.after p

inductive Bracket where
  | square | round
  deriving DecidableEq, Inhabited

def Bracket.openText : Bracket → String
  | .square => "["
  | .round => "("

def Bracket.closeText : Bracket → String
  | .square => "]"
  | .round => ")"

inductive ScanCause where
  | newlineInText
  | endInEscape
  | unclosedText
  | unclosedBraces
  | unexpectedBrace
  | blankInTag
  | unclosedTag
  | missing (b : Bracket)
  | unexpectedClose (b : Bracket)
  | unexpectedEnd
  | nothingToQuote
  | badRefinement (run : String)
  | getAndSet
  | emptySegment (run : String)
  | shortPath
  deriving DecidableEq, Inhabited

def ScanCause.message : ScanCause → String
  | .newlineInText => "newline in string literal"
  | .endInEscape => "unexpected end of string"
  | .unclosedText => "unclosed string literal"
  | .unclosedBraces => "unclosed braced text"
  | .unexpectedBrace => "unexpected \x7d"
  | .blankInTag => "whitespace in tag"
  | .unclosedTag => "unclosed tag"
  | .missing b => "missing " ++ b.closeText
  | .unexpectedClose b => "unexpected " ++ b.closeText
  | .unexpectedEnd => "unexpected end of input"
  | .nothingToQuote => "nothing to quote after '"
  | .badRefinement run => "bad refinement " ++ run
  | .getAndSet => "path cannot be both get and set"
  | .emptySegment run => "empty segment in path " ++ run
  | .shortPath => "path needs at least two segments"

/-- Source text that has no reading, and the place where that shows. -/
structure ScanError where
  cause : ScanCause
  position : Position
  deriving DecidableEq, Inhabited

def ScanError.message (e : ScanError) : String :=
  "scan error at " ++ Nat.repr e.position.line ++ ":" ++ Nat.repr e.position.column ++ ": "
    ++ e.cause.message

@[simp] theorem Position.afterAll_nil (p : Position) : p.afterAll [] = p := rfl

@[simp] theorem Position.afterAll_cons (p : Position) (c : Char) (cs : List Char) :
    p.afterAll (c :: cs) = (p.after c).afterAll cs := rfl

theorem Position.afterAll_append (p : Position) (cs ds : List Char) :
    p.afterAll (cs ++ ds) = (p.afterAll cs).afterAll ds := by
  simp [Position.afterAll]

theorem Position.after_ne (p : Position) (c : Char) : p.after c ≠ p := by
  intro h
  rcases p with ⟨l, k⟩
  by_cases hc : c = '\n' <;> simp [Position.after, hc] at h

end Homoicon.Source
