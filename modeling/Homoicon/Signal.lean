import Homoicon.Value.Mold
import Homoicon.Value.Same

/-!
# Signals

A signal is a labelled non-local exit.  It passes through every evaluation around it until one
recognizes its label.  A return names the activation it is addressed to, so that no other one can
take it.  Three kinds of evaluation take signals: loops, catches and interpreted bodies.
-/

namespace Homoicon

inductive SignalLabel where
  /-- Definitional return to one activation. -/
  | returnTo (target : FrameId)
  | breakLoop
  | continueLoop
  | throw (name : Option Value)
  | halt
  /-- An exit that a dialect takes at its own boundary. -/
  | dialect (name : String)

structure Signal where
  label : SignalLabel
  payload : Value := .null

instance : Inhabited Signal := ⟨{ label := .halt }⟩

namespace Signal

def acceptName : String := "accept"

def rejectName : String := "reject"

def halt : Signal := { label := .halt }

def isReturnTo (s : Signal) (id : FrameId) : Bool :=
  match s.label with
  | .returnTo target => target == id
  | _ => false

def labelText : SignalLabel → String
  | .returnTo target => "return to frame #" ++ Nat.repr target
  | .breakLoop => "break"
  | .continueLoop => "continue"
  | .throw none => "throw"
  | .throw (some name) => "throw/name " ++ name.mold
  | .halt => "halt"
  | .dialect name => name

/-- The text of a signal: its label, and its payload unless that is null. -/
def message (s : Signal) : String :=
  labelText s.label ++ (if s.payload.isNull then "" else " with " ++ s.payload.mold)

end Signal

/-- Whether a catch takes a signal: an unnamed throw without names, a named one by its name. -/
def catches (names : Option (List Value)) : SignalLabel → Bool
  | .throw none => names.isNone
  | .throw (some name) => names.any fun ns => ns.any fun n => n.same name
  | _ => false

inductive Taker where
  | loop (body : List Value)
  /-- A catch, with the names it waits for, if it waits for named throws. -/
  | catching (names : Option (List Value))
  /-- The interpreted body of one activation. -/
  | activation (id : FrameId)

def Taker.takes : Taker → Signal → Bool
  | .loop _, s =>
    match s.label with
    | .breakLoop | .continueLoop => true
    | _ => false
  | .catching names, s => catches names s.label
  | .activation id, s => s.isReturnTo id

end Homoicon
