import Homoicon.Source.Position

/-!
# Completeness of input

Whether a chunk of input can be scanned yet, or more lines are needed: brackets, texts and comments
are followed character by character.
-/

namespace Homoicon.Interactive

inductive Completeness where
  | complete
  /-- So many brackets of each sort are open, and perhaps a text. -/
  | incomplete (squares rounds : Nat) (text : Bool)
  /-- A closing bracket that closes nothing. -/
  | invalid (b : Source.Bracket)
  deriving DecidableEq, Inhabited

/-- What the characters being read belong to. -/
inductive Mode where
  | code
  | comment
  /-- A text in quotes; an escape may wait for its character. -/
  | text (escaped : Bool)
  /-- A text in braces, so many of them open. -/
  | braces (depth : Nat) (escaped : Bool)
  deriving DecidableEq, Inhabited

/-- What is open at some point of the input. -/
structure Openness where
  mode : Mode := .code
  /-- The open brackets, the innermost first. -/
  brackets : List Source.Bracket := []
  deriving DecidableEq, Inhabited

namespace Openness

def close (o : Openness) (b : Source.Bracket) : Except Source.Bracket Openness :=
  match o.brackets with
  | top :: rest => if top = b then .ok { o with brackets := rest } else .error b
  | [] => .error b

def codeChar (o : Openness) (c : Char) : Except Source.Bracket Openness :=
  if c = ';' then .ok { o with mode := .comment }
  else if c = '"' then .ok { o with mode := .text false }
  else if c = '\x7b' then .ok { o with mode := .braces 1 false }
  else if c = '[' then .ok { o with brackets := .square :: o.brackets }
  else if c = '(' then .ok { o with brackets := .round :: o.brackets }
  else if c = ']' then o.close .square
  else if c = ')' then o.close .round
  else .ok o

def braceMode (depth : Nat) (c : Char) : Mode :=
  if c = '^' then .braces depth true
  else if c = '\x7b' then .braces (depth + 1) false
  else if c = '\x7d' then if depth ≤ 1 then .code else .braces (depth - 1) false
  else .braces depth false

def next (o : Openness) (c : Char) : Except Source.Bracket Openness :=
  match o.mode with
  | .code => o.codeChar c
  | .comment => .ok { o with mode := if c = '\n' then .code else .comment }
  | .text true => .ok { o with mode := .text false }
  | .text false =>
    .ok { o with mode :=
      if c = '^' || c = '\\' then .text true else if c = '"' then .code else .text false }
  | .braces depth true => .ok { o with mode := .braces depth false }
  | .braces depth false => .ok { o with mode := braceMode depth c }

def inText (o : Openness) : Bool :=
  match o.mode with
  | .text _ | .braces _ _ => true
  | _ => false

def status (o : Openness) : Completeness :=
  if o.brackets.isEmpty && !o.inText then .complete
  else .incomplete (o.brackets.count .square) (o.brackets.count .round) o.inText

end Openness

def completeness (s : String) : Completeness :=
  match s.toList.foldlM Openness.next {} with
  | .ok o => o.status
  | .error b => .invalid b

def invalidReason (b : Source.Bracket) : String := "unexpected " ++ b.closeText

end Homoicon.Interactive
