import Homoicon.Interactive.Completeness
import Homoicon.Interactive.Erasure
import Homoicon.Session
import Homoicon.Text.Blank

/-!
# The interactive loop

A dialogue reads lines and evaluates what they say.  Lines are gathered until brackets and texts are
closed; then the entry is evaluated, and its result is shown.  The loop ends with an entry that asks
for it or with the input.
-/

namespace Homoicon.Interactive

structure Shown where
  output : String := ""
  errors : String := ""
  deriving DecidableEq, Inhabited

instance : Append Shown := ⟨fun a b => ⟨a.output ++ b.output, a.errors ++ b.errors⟩⟩

structure Dialogue where
  session : Session
  /-- The lines of an entry that is not complete. -/
  pending : String := ""
  /-- Whether the dialogue was asked to end. -/
  ended : Bool := false

instance : Inhabited Dialogue := ⟨{ session := default }⟩

def title : String := "reval 0.2.0"

def greeting : String := title ++ "\nType 'quit' or press Ctrl-D to leave.\n\n"

def isFarewell (entry : String) : Bool := entry = "quit" || entry = "exit"

def splitLineEnd (line : List Char) : List Char × List Char :=
  match line.reverse with
  | '\n' :: '\r' :: front => (front.reverse, ['\r', '\n'])
  | '\n' :: front => (front.reverse, ['\n'])
  | _ => (line, [])

namespace Dialogue

/-- The result of an entry as it is shown: values as output, errors among the errors. -/
def showResult (r : HostResult) : Shown :=
  match renderResult r, r with
  | none, _ => {}
  | some text, .ok _ => { output := text ++ "\n" }
  | some text, .error _ => { errors := text ++ "\n" }

def evalEntry (d : Dialogue) (entry : String) : Shown × Dialogue :=
  let entry := Text.trimBlank entry
  if entry = "" then ({}, d)
  else if isFarewell entry then ({}, { d with ended := true })
  else
    match d with
    | ⟨session, pending, ended⟩ =>
      match session.evalText entry with
      | (result, session) =>
        match session.takePrinted with
        | (printed, session) =>
          ({ output := printed } ++ showResult result, ⟨session, pending, ended⟩)

/-- Takes a line, with its line end.  Backspaces are carried out on all that is pending.  Text that
can never be completed is reported, and the lines after it are joined to it. -/
def takeLine (d : Dialogue) (line : String) : Shown × Dialogue :=
  let (front, lineEnd) := splitLineEnd (d.pending ++ line).toList
  let entry := String.ofList (corrected front)
  match completeness entry with
  | .complete => { d with pending := "" }.evalEntry entry
  | .incomplete .. => ({}, { d with pending := entry ++ String.ofList lineEnd })
  | .invalid b => ({ errors := invalidReason b }, { d with pending := entry })

def takeLines : Dialogue → List String → Shown × Dialogue
  | d, [] => ({}, d)
  | d, line :: lines =>
    if d.ended then ({}, d)
    else
      let (shown, d) := d.takeLine line
      let (others, d) := d.takeLines lines
      (shown ++ others, d)

end Dialogue

def prependChar (c : Char) (lines : List (List Char)) : List (List Char) :=
  if c = '\n' then [c] :: lines
  else
    match lines with
    | [] => [[c]]
    | line :: rest => (c :: line) :: rest

/-- The lines of a text, each with its line end; the last one may have none. -/
def linesOf (s : String) : List String := (s.toList.foldr prependChar []).map String.ofList

theorem flatten_prependChar (c : Char) (lines : List (List Char)) :
    (prependChar c lines).flatten = c :: lines.flatten := by
  unfold prependChar
  split
  · simp
  · cases lines <;> simp

theorem flatten_foldr_prependChar (cs : List Char) : (cs.foldr prependChar []).flatten = cs := by
  induction cs with
  | nil => rfl
  | cons c cs ih => rw [List.foldr_cons, flatten_prependChar, ih]

/-- The lines of a text make up the text. -/
theorem join_linesOf (s : String) : String.join (linesOf s) = s := by
  rw [← String.toList_inj, String.toList_join, linesOf, List.flatMap_map]
  simp only [String.toList_ofList]
  rw [List.flatMap_id', flatten_foldr_prependChar]

end Homoicon.Interactive
