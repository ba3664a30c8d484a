import Homoicon.Evaluate.Watch
import Homoicon.Registry.Standard

/-!
# Sessions

A session is what a host holds: a machine, the scope of the library and the scope of the user below
it.  Code is run in the scope of the user, and everything it does stays for the code after it.
-/

namespace Homoicon

inductive HostError where
  | scan (e : Source.ScanError)
  | fault (f : Fault)
  | signal (s : Signal)
  | exhausted

def HostError.message : HostError → String
  | .scan e => e.message
  | .fault f => "error: " ++ f.message
  | .signal s => "no catch for " ++ s.message
  | .exhausted => "error: evaluation did not finish"

abbrev HostResult := Except HostError Value

inductive DialectOutcome where
  | accepted (v : Value)
  | rejected
  | completed (v : Value)

structure Session where
  machine : Machine
  lib : ScopeId
  user : ScopeId

instance : Inhabited Session := ⟨{ machine := default, lib := 0, user := 0 }⟩

namespace Session

def prepare (r : Registry) : Eval (ScopeId × ScopeId) := do
  let lib ← Eval.newScope none
  r.install lib
  let user ← Eval.newScope (some lib)
  return (lib, user)

/-- A session with a given registry; `listening` says whether it keeps a journal. -/
def withRegistry (config : Config) (r : Registry) (listening : Bool) : Except HostError Session :=
  match prepare r { Machine.new config with listening } with
  | (.done (lib, user), m) =>
    .ok { machine := m.note (.ready config.maxDepth config.pollInterval r.size), lib, user }
  | (.failed f, _) => .error (.fault f)
  | (.thrown s, _) => .error (.signal s)
  | (.exhausted, _) => .error .exhausted

def evaluator (s : Session) : Evaluator := Evaluator.ofConfig s.machine.config

def run {α : Type} (s : Session) (x : Eval α) : Outcome α × Session :=
  match s with
  | ⟨machine, lib, user⟩ =>
    match x machine with
    | (outcome, machine) => (outcome, ⟨machine, lib, user⟩)

/-- Notes that an evaluation that began at tick `start` has not failed. -/
def noteFinished (s : Session) (start : Nat) : Session :=
  { s with machine := s.machine.note (.finished (s.machine.tick - start)) }

def evalUnits (s : Session) (units : List Value) : HostResult × Session :=
  let start := s.machine.tick
  match s.run (s.evaluator.runUnits units s.user) with
  | (.done v, s) => (.ok (v.getD .void), s.noteFinished start)
  | (.thrown signal, s) => (.error (.signal signal), s.noteFinished start)
  | (.failed f, s) => (.error (.fault f), s)
  | (.exhausted, s) => (.error .exhausted, s)

def evalText (s : Session) (source : String) : HostResult × Session :=
  match Source.scan source with
  | .ok units => s.evalUnits units
  | .error e => (.error (.scan e), s)

def evalItems (s : Session) (items : List FeedItem) : HostResult × Session :=
  match Feed.unitsOfItems items with
  | .ok units => s.evalUnits units
  | .error e => (.error (.scan e), s)

/-- Runs source text as a dialect, which `accept` and `reject` can end. -/
def evalDialect (s : Session) (source : String) : Except HostError DialectOutcome × Session :=
  match Source.scan source with
  | .error e => (.error (.scan e), s)
  | .ok units =>
    match s.run (s.evaluator.runUnits units s.user) with
    | (.done v, s) => (.ok (.completed (v.getD .void)), s)
    | (.thrown signal, s) =>
      match signal.label with
      | .dialect name =>
        if name = Signal.acceptName then (.ok (.accepted signal.payload), s)
        else if name = Signal.rejectName then (.ok .rejected, s)
        else (.error (.signal signal), s)
      | _ => (.error (.signal signal), s)
    | (.failed f, s) => (.error (.fault f), s)
    | (.exhausted, s) => (.error .exhausted, s)

/-- Watches the steps of source text in the scope of the user. -/
def watch (s : Session) (w : Watch) (source : String) : Except HostError Watched × Session :=
  match Source.scan source with
  | .error e => (.error (.scan e), s)
  | .ok units =>
    match s.run (s.evaluator.watchUnits w units s.user) with
    | (.done watched, s) => (.ok watched, s)
    | (.failed f, s) => (.error (.fault f), s)
    | (.thrown signal, s) => (.error (.signal signal), s)
    | (.exhausted, s) => (.error .exhausted, s)

def register (s : Session) (n : Native) : Except HostError Unit × Session :=
  match s.run (n.defineIn s.lib) with
  | (.done _, s) => (.ok (), s)
  | (.failed f, s) => (.error (.fault f), s)
  | (.thrown signal, s) => (.error (.signal signal), s)
  | (.exhausted, s) => (.error .exhausted, s)

def set (s : Session) (name : String) (v : Value) : Session :=
  { s with machine := { s.machine with scopes := s.machine.scopes.define s.user name v } }

def get? (s : Session) (name : String) : Option Value := s.machine.lookup s.user name

def names (s : Session) : List String := s.machine.scopes.names s.user

def userNames (s : Session) : List String :=
  (s.machine.scopes.bindings s.user).names.mergeSort fun a b => a ≤ b

def interrupt (s : Session) : Bool := s.machine.interrupt

def setInterrupt (s : Session) (b : Bool) : Session :=
  { s with machine := { s.machine with interrupt := b } }

def setHook (s : Session) (hook : Nat → Bool) : Session :=
  { s with machine := { s.machine with hook := some hook } }

def takePrinted (s : Session) : String × Session :=
  (s.machine.printed, { s with machine := { s.machine with printed := "" } })

/-- Hands over the ticks at which the hook was asked since the last time. -/
def takePolled (s : Session) : List Nat × Session :=
  (s.machine.polled.toList, { s with machine := { s.machine with polled := #[] } })

def journal (s : Session) : List Event := s.machine.journal.toList

end Session

def renderResult : HostResult → Option String
  | .ok .void => none
  | .ok v => some ("== " ++ v.mold)
  | .error (.signal { label := .halt, .. }) => some "** halted"
  | .error e => some ("** " ++ e.message)

end Homoicon
