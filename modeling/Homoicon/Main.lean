import Homoicon.CommandLine

/-!
# The program

Reads files and the standard input, and writes what a run shows.
-/

namespace Homoicon.CommandLine

def writeShown (shown : Interactive.Shown) : IO Unit := do
  let output ← IO.getStdout
  let errors ← IO.getStderr
  output.putStr shown.output
  output.flush
  errors.putStr shown.errors
  errors.flush

def readFile? (path : String) : IO (Option String) := do
  try
    let contents ← IO.FS.readFile path
    return some contents
  catch _ => return none

def readFiles (o : Options) : IO (List (String × String)) :=
  ([o.config.getD settingsFile] ++ o.input.toList).filterMapM fun path => do
    let contents ← readFile? path
    return contents.map fun c => (path, c)

/-- Everything that is left on a stream, after what was read before. -/
partial def readAll (stream : IO.FS.Stream) (before : String) : IO String := do
  let line ← stream.getLine
  if line.isEmpty then return before else readAll stream (before ++ line)

/-- Reads lines and shows the answers until the dialogue or the input ends. -/
partial def converse (stream : IO.FS.Stream) (d : Interactive.Dialogue) : IO Unit := do
  if d.ended then return ()
  let line ← stream.getLine
  if line.isEmpty then return ()
  let (shown, d) := d.takeLine line
  writeShown shown
  converse stream d

def runOptions (arguments : List String) (o : Options) : IO UInt32 := do
  let files ← readFiles o
  let file? := fun path => files.lookup path
  let stream ← IO.getStdin
  match o.startsDialogue, startSession o file? with
  | true, .ok session =>
    writeShown { output := Interactive.greeting }
    converse stream { session }
    return 0
  | _, _ =>
    let input ← if o.code.isNone && o.input == some "-" then readAll stream "" else pure ""
    let report := run arguments { file?, input }
    writeShown report.shown
    return report.code.toUInt32

end Homoicon.CommandLine

open Homoicon.CommandLine in
def main (arguments : List String) : IO UInt32 := do
  match Request.ofArguments arguments with
  | .ok (.run o) => runOptions arguments o
  | _ =>
    let report := run arguments { file? := fun _ => none, input := "" }
    writeShown report.shown
    return report.code.toUInt32
