import Homoicon.Source.Number
import Homoicon.Source.Position

/-!
# Words and paths in source text

A run of word characters is a word of some sort, a number, a placeholder, a refinement or a path.
A path may also be written in several pieces, with groups between runs and nothing in between.
-/

namespace Homoicon.Source

/-- A piece of a path: a run, which may hold several segments, or a group. -/
inductive Piece where
  | run (cs : List Char)
  | group (items : List Value)

def stripFront? (c : Char) : List Char → Option (List Char)
  | d :: cs => if d = c then some cs else none
  | [] => none

def stripBack? (c : Char) (cs : List Char) : Option (List Char) :=
  if cs.getLast? = some c then some cs.dropLast else none

def segments : List Char → List (List Char)
  | [] => [[]]
  | c :: cs =>
    if c = '/' then [] :: segments cs
    else
      match segments cs with
      | [] => [[c]]
      | s :: rest => (c :: s) :: rest

def segmentValue (cs : List Char) : Value := (readNumber? cs).getD (.word (String.ofList cs))

/-- The segments of a piece.  A run gives up one slash to the piece before it and one to the piece
after it. -/
def Piece.segmentValues (first last : Bool) : Piece → Except ScanCause (List Value)
  | .group items => .ok [.group items]
  | .run cs =>
    let front := if first then cs else (stripFront? '/' cs).getD cs
    let inner := if last then front else (stripBack? '/' front).getD front
    if inner.isEmpty then .ok []
    else
      let parts := segments inner
      if parts.any List.isEmpty then .error (.emptySegment (String.ofList cs))
      else .ok (parts.map segmentValue)

/-- The segments of the pieces of a path; `first` says that none stands before them. -/
def pathSegments (first : Bool) : List Piece → Except ScanCause (List Value)
  | [] => .ok []
  | [p] => p.segmentValues first true
  | p :: ps => do
    let here ← p.segmentValues first false
    let rest ← pathSegments false ps
    return here ++ rest

def takeGetMark : List Piece → Bool × List Piece
  | .run cs :: ps =>
    match stripFront? ':' cs with
    | some rest => (true, .run rest :: ps)
    | none => (false, .run cs :: ps)
  | ps => (false, ps)

def takeSetMark : List Piece → Bool × List Piece
  | [.run cs] =>
    match stripBack? ':' cs with
    | some rest => (true, [.run rest])
    | none => (false, [.run cs])
  | p :: q :: ps =>
    let (set, rest) := takeSetMark (q :: ps)
    (set, p :: rest)
  | ps => (false, ps)

def assemblePath (pieces : List Piece) : Except ScanCause Value := do
  let (get, pieces) := takeGetMark pieces
  let (set, pieces) := takeSetMark pieces
  if get && set then .error .getAndSet
  else
    let items ← pathSegments true pieces
    if items.length < 2 then .error .shortPath
    else return if set then .setPath items else if get then .getPath items else .path items

def wordValue (cs : List Char) : Value :=
  if 1 < cs.length then
    match stripBack? ':' cs with
    | some name => .setWord (String.ofList name)
    | none =>
      match stripFront? ':' cs with
      | some name => .getWord (String.ofList name)
      | none => .word (String.ofList cs)
  else .word (String.ofList cs)

def runValue (cs : List Char) : Except ScanCause Value :=
  match cs with
  | ['_'] => .ok .blank
  | ['~'] => .ok .void
  | ['/'] | ['/', '/'] => .ok (.word (String.ofList cs))
  | '/' :: name =>
    if name.contains '/' || name.isEmpty then .error (.badRefinement (String.ofList cs))
    else .ok (.refinement (String.ofList name))
  | _ =>
    if cs.contains '/' then assemblePath [.run cs]
    else .ok ((readNumber? cs).getD (wordValue cs))

/-- The value of one or more pieces written without anything between them. -/
def piecesValue : List Piece → Except ScanCause Value
  | [.group items] => .ok (.group items)
  | [.run cs] => runValue cs
  | pieces => assemblePath pieces

end Homoicon.Source
