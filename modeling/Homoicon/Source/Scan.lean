import Homoicon.Source.Path
import Homoicon.Source.Token

/-!
# Scanning

Tokens are put together to units of code one by one.  A builder holds what is still open: the items
of the innermost bracket, the marks that wait for the next unit, the pieces of a path that may go
on, and the layers of the brackets around.
-/

namespace Homoicon.Source

inductive Mark where
  | quote | silence
  deriving DecidableEq, Inhabited

def Mark.apply : Mark → Value → Value
  | .quote, v => .quoted v
  | .silence, v => .sym v

structure Layer where
  bracket : Bracket
  /-- Items before the bracket, the last first. -/
  items : List Value
  /-- Marks in front of the bracket, the innermost first. -/
  marks : List Mark
  /-- Pieces of the path that a round bracket goes on with. -/
  pieces : List Piece

structure Builder where
  /-- Items of the innermost open bracket, the last first. -/
  items : List Value := []
  /-- Marks that wait for a unit, the innermost first. -/
  marks : List Mark := []
  /-- Pieces that end at the last token and may go on with the next. -/
  pieces : List Piece := []
  /-- The open brackets, the innermost first. -/
  layers : List Layer := []

namespace Builder

def emit (b : Builder) (v : Value) : Builder :=
  { b with items := b.marks.foldl (fun v m => m.apply v) v :: b.items, marks := [], pieces := [] }

/-- Whether a token goes on with the pieces of a path: an opening bracket after a run that ends in
a slash, or a run that starts with one after a group. -/
def continues (b : Builder) (t : Spanned) : Bool :=
  t.joined &&
    match b.pieces.getLast?, t.token with
    | some (.run cs), .opening .round => cs.getLast? == some '/'
    | some (.group _), .run s => s.toList.head? == some '/'
    | _, _ => false

def finishPieces (b : Builder) : Except ScanCause Builder :=
  match b.pieces with
  | [] => .ok b
  | pieces => (piecesValue pieces).map b.emit

def openLayer (b : Builder) (bracket : Bracket) : Builder :=
  { layers := ⟨bracket, b.items, b.marks, b.pieces⟩ :: b.layers }

/-- Closes the innermost bracket.  A block is a finished unit; a group may go on as a path. -/
def closeLayer (b : Builder) (bracket : Bracket) : Except ScanCause Builder :=
  match b.marks, b.layers with
  | [], layer :: layers =>
    if layer.bracket = bracket then
      let items := b.items.reverse
      let outer : Builder := { items := layer.items, marks := layer.marks, layers }
      match bracket with
      | .square => .ok (outer.emit (.block items))
      | .round => .ok { outer with pieces := layer.pieces ++ [.group items] }
    else .error (.unexpectedClose bracket)
  | _, _ => .error (.unexpectedClose bracket)

/-- Takes the next token, which does not go on with a path and is not the end of input. -/
def begin (b : Builder) : Token → Except ScanCause Builder
  | .opening bracket => .ok (b.openLayer bracket)
  | .closing bracket => b.closeLayer bracket
  | .text s => .ok (b.emit (.text s))
  | .tag s => .ok (b.emit (.tag s))
  | .comma => .ok (b.emit .comma)
  | .apostrophe => .ok { b with marks := .quote :: b.marks }
  | .atSign => .ok { b with marks := .silence :: b.marks }
  | .run s => .ok { b with pieces := [.run s.toList] }
  | .endOfInput => .error .unexpectedEnd

def extend (b : Builder) : Token → Builder
  | .run s => { b with pieces := b.pieces ++ [.run s.toList] }
  | .opening bracket => b.openLayer bracket
  | _ => b

def checkQuote (b : Builder) (t : Spanned) : Except ScanCause Unit :=
  if b.marks.head? == some .quote && (!t.joined || t.token == .endOfInput) then
    .error .nothingToQuote
  else .ok ()

def next (b : Builder) (t : Spanned) : Except ScanCause Builder :=
  if b.continues t then .ok (b.extend t.token)
  else do
    let b ← b.finishPieces
    b.checkQuote t
    b.begin t.token

def finish (b : Builder) (t : Spanned) : Except ScanCause (List Value) := do
  let b ← b.finishPieces
  b.checkQuote t
  match b.marks, b.layers with
  | [], [] => return b.items.reverse
  | [], layer :: _ => .error (.missing layer.bracket)
  | _ :: _, _ => .error .unexpectedEnd

end Builder

/-- An outcome with the place of the token that it belongs to. -/
def locate {α : Type} (p : Position) : Except ScanCause α → Except ScanError α
  | .ok a => .ok a
  | .error cause => .error ⟨cause, p⟩

def build (b : Builder) : List Spanned → Except ScanError (List Value)
  | [] => .ok b.items.reverse
  | t :: ts =>
    if t.token = .endOfInput then locate t.position (b.finish t)
    else
      match locate t.position (b.next t) with
      | .error e => .error e
      | .ok b => build b ts

def scan (s : String) : Except ScanError (List Value) := do
  let tokens ← tokenize s
  build {} tokens

end Homoicon.Source
