import Homoicon.Config
import Homoicon.Event
import Homoicon.Feed
import Homoicon.Scope

/-!
# The machine

Everything that an evaluation can read and change, as one value: the heaps of scopes and feeds, the
counters, the live frames, and what has been printed and noted.
-/

namespace Homoicon

structure Activation where
  id : FrameId
  label : Option String
  deriving DecidableEq, Inhabited

structure Machine where
  config : Config
  tick : Nat := 0
  /-- Steps until the next check for an interrupt. -/
  countdown : Nat
  interrupt : Bool := false
  /-- Asked at every check with the current tick; `true` requests a stop. -/
  hook : Option (Nat → Bool) := none
  /-- The ticks at which the hook was asked. -/
  polled : Array Nat := #[]
  nextFrame : FrameId := 1
  /-- The live frames, the innermost first. -/
  stack : List Activation := []
  nextIdentity : Identity := 0
  scopes : Scopes := {}
  feeds : Array Feed := #[]
  /-- The arguments of frames made visible, as they were when last looked at, the latest first. -/
  snapshots : List (FrameId × Bindings) := []
  printed : String := ""
  listening : Bool := false
  journal : Array Event := #[]

namespace Machine

def new (config : Config) : Machine := { config, countdown := config.pollPeriod }

instance : Inhabited Machine := ⟨new {}⟩

def depth (m : Machine) : Nat := m.stack.length

def backtrace (m : Machine) : List String := (m.stack.filterMap (·.label)).reverse

/-- The feed of a given number, an empty one if there is none. -/
def feed (m : Machine) (id : FeedId) : Feed := m.feeds.getD id default

def lookup (m : Machine) (s : ScopeId) (name : String) : Option Value := m.scopes.lookup s name

def frameArgument? (m : Machine) (id : FrameId) (name : String) : Option Value :=
  (m.snapshots.find? fun s => s.1 == id).bind fun s => s.2.get? name

def note (m : Machine) (e : Event) : Machine :=
  if m.listening then { m with journal := m.journal.push e } else m

/-- The machine with a new frame on its stack; the frame gets the next number. -/
def enter (m : Machine) (label : Option String) : Machine :=
  { m with nextFrame := m.nextFrame + 1, stack := ⟨m.nextFrame, label⟩ :: m.stack }

/-- The stack below the frame `id`; a stack without that frame stays as it is. -/
def stackBelow (id : FrameId) (stack : List Activation) : List Activation :=
  if stack.any fun a => a.id == id then (stack.dropWhile fun a => a.id != id).tail else stack

/-- The machine after the frame `id` is taken off its stack. -/
def leave (m : Machine) (id : FrameId) : Machine :=
  { m with stack := stackBelow id m.stack }

theorem stackBelow_cons (a : Activation) (stack : List Activation) :
    stackBelow a.id (a :: stack) = stack := by
  simp [stackBelow]

theorem stack_leave {m : Machine} {a : Activation} {rest : List Activation}
    (h : m.stack = a :: rest) : (m.leave a.id).stack = rest := by
  rw [leave, h]
  exact stackBelow_cons a rest

end Machine

end Homoicon
