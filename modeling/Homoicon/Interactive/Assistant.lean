import Homoicon.Text.Blank
import Homoicon.Text.Bytes

/-!
# Completion and hints

While a line is typed, words that the session knows complete the word before the cursor, and the
latest earlier line that goes on as the current one begins is shown as a hint.  The cursor is a
byte offset into the line.
-/

namespace Homoicon.Interactive

open Text (byteLength takeBytes?)

def separates (c : Char) : Bool :=
  Text.isBlank c || ['[', ']', '(', ')', ':', '\x27', '/'].contains c

/-- What is known for completion and hints. -/
structure Assistant where
  /-- The known words, ascending and each once. -/
  words : List String := []
  history : List String := []
  deriving DecidableEq, Inhabited

namespace Assistant

def historyLimit : Nat := 100

def setWords (a : Assistant) (words : List String) : Assistant :=
  { a with words := (words.mergeSort fun x y => x ≤ y).eraseDups }

def remember (a : Assistant) (line : String) : Assistant :=
  let kept := if historyLimit ≤ a.history.length then a.history.drop 1 else a.history
  { a with history := kept ++ [line] }

/-- Where the word before the cursor begins: one byte behind the start of the last separator. -/
def wordStart (before : List Char) : Nat :=
  match before.reverse.dropWhile fun c => !separates c with
  | [] => 0
  | sep :: outer => byteLength (sep :: outer) - sep.utf8Size + 1

/-- The characters from a byte offset on, if no character lies across it. -/
def dropBytes? (cs : List Char) (n : Nat) : Option (List Char) :=
  (takeBytes? cs n).map fun front => cs.drop front.length

/-- Completes the word before the cursor: where it begins and the words that begin like it.  There
is no answer if an offset lies inside a character. -/
def complete? (a : Assistant) (line : String) (cursor : Nat) : Option (Nat × List String) := do
  let before ← takeBytes? line.toList cursor
  let start := wordStart before
  let begun ← dropBytes? before start
  if begun.isEmpty then return (cursor, [])
  else return (start, a.words.filter fun w => begun.isPrefixOf w.toList)

/-- The rest of the latest earlier line that begins like the current one, with the cursor at its
end. -/
def hint? (a : Assistant) (line : String) (cursor : Nat) : Option String :=
  let typed := line.toList
  if cursor < byteLength typed || typed.isEmpty then none
  else
    (a.history.reverse.find? fun earlier =>
      typed.isPrefixOf earlier.toList && typed.length < earlier.toList.length).map fun earlier =>
        String.ofList (earlier.toList.drop typed.length)

def showHint (hint : String) : String := "\x1b[90m" ++ hint ++ "\x1b[0m"

end Assistant

end Homoicon.Interactive
