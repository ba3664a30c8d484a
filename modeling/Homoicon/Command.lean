import Homoicon.CallState
import Homoicon.Machine

/-!
# Commands

A command is one thing that an evaluation can ask of the machine.  It has an answer of a fixed type
and changes no more of the machine than it says.  Entering and leaving frames is not a command: that
is done around a whole evaluation.
-/

namespace Homoicon

/-- A point of an evaluation that is worth telling apart.  It leaves no trace on the machine. -/
inductive Mark where
  /-- A built-in operation begins, for a call whose slots are filled. -/
  | operation (n : Native) (call : CallState)
  /-- A signal is taken and goes no further. -/
  | taken (taker : Taker) (s : Signal)

/-- What an evaluation can ask of the machine, with the type of the answer. -/
inductive Command : Type → Type where
  /-- The value of a name, looked up from a scope outward. -/
  | lookup (scope : ScopeId) (name : String) : Command (Option Value)
  | newScope (parent : Option ScopeId) : Command ScopeId
  | define (scope : ScopeId) (name : String) (v : Value) : Command Unit
  | assign (scope : ScopeId) (name : String) (v : Value) : Command Unit
  | newFeed (units : List Value) (scope : ScopeId) : Command FeedId
  /-- A feed as it stands, for those who look on from outside. -/
  | feed (id : FeedId) : Command Feed
  | scopeOf (feed : FeedId) : Command ScopeId
  | peek (feed : FeedId) : Command (Option Value)
  | peekNext (feed : FeedId) : Command (Option Value)
  | lookback (feed : FeedId) : Command (Option Value)
  | unitsLeft (feed : FeedId) : Command Nat
  | advance (feed : FeedId) : Command Unit
  | noLookahead (feed : FeedId) : Command Bool
  | setNoLookahead (feed : FeedId) (b : Bool) : Command Unit
  | deferring (feed : FeedId) : Command Bool
  | setDeferring (feed : FeedId) (b : Bool) : Command Unit
  /-- Keeps the arguments of a frame, as they are now, for those who hold the frame. -/
  | reify (frame : FrameId) (arguments : Bindings) : Command Unit
  | frameArgument (frame : FrameId) (name : String) : Command (Option Value)
  | depth : Command Nat
  | tick : Command Nat
  | backtrace : Command (List String)
  /-- A number that has not been handed out before. -/
  | freshIdentity : Command Identity
  /-- The checkpoint at the start of every step. -/
  | poll : Command (Option Signal)
  | requestStop : Command Unit
  | printLine (s : String) : Command Unit
  /-- Hands over what has been printed so far. -/
  | takePrinted : Command String
  | note (e : Event) : Command Unit
  /-- Notes a state of the step driver, if the configuration asks for it. -/
  | noteState (frame : FrameId) (state : String) : Command Unit
  | mark (k : Mark) : Command Unit

namespace Machine

def updateFeed (m : Machine) (id : FeedId) (f : Feed → Feed) : Machine :=
  { m with feeds := m.feeds.modify id f }

/-- Assigns to a name; the first assignment of a name that nothing binds is noted. -/
def assign (m : Machine) (s : ScopeId) (name : String) (v : Value) : Machine :=
  let noted := if (m.scopes.binder? s name).isSome then m else m.note (.firstAssignment name)
  { noted with scopes := m.scopes.assign s name v }

/-- The checkpoint of a step.  Each time the countdown runs out the hook is asked, and a requested
stop is taken up: the request is cleared and the evaluation halts. -/
def poll (m : Machine) : Option Signal × Machine :=
  let m := { m with tick := m.tick + 1, countdown := m.countdown - 1 }
  if 0 < m.countdown then (none, m)
  else
    let m := { m with countdown := m.config.pollPeriod }
    let m :=
      match m.hook with
      | some ask =>
        { m with polled := m.polled.push m.tick, interrupt := m.interrupt || ask m.tick }
      | none => m
    if m.interrupt then
      let m := { m with interrupt := false }
      (some Signal.halt, m.note (.interrupted m.tick))
    else (none, m)

end Machine

def Command.run : {β : Type} → Command β → Machine → β × Machine
  | _, .lookup scope name, m => (m.lookup scope name, m)
  | _, .newScope parent, m => (m.scopes.next, { m with scopes := m.scopes.make parent })
  | _, .define scope name v, m => ((), { m with scopes := m.scopes.define scope name v })
  | _, .assign scope name v, m => ((), m.assign scope name v)
  | _, .newFeed units scope, m => (m.feeds.size, { m with feeds := m.feeds.push { units, scope } })
  | _, .feed id, m => (m.feed id, m)
  | _, .scopeOf id, m => ((m.feed id).scope, m)
  | _, .peek id, m => ((m.feed id).peek, m)
  | _, .peekNext id, m => ((m.feed id).peekNext, m)
  | _, .lookback id, m => ((m.feed id).lookback, m)
  | _, .unitsLeft id, m => ((m.feed id).units.length, m)
  | _, .advance id, m => ((), m.updateFeed id Feed.advance)
  | _, .noLookahead id, m => ((m.feed id).noLookahead, m)
  | _, .setNoLookahead id b, m => ((), m.updateFeed id fun f => { f with noLookahead := b })
  | _, .deferring id, m => ((m.feed id).deferring, m)
  | _, .setDeferring id b, m => ((), m.updateFeed id fun f => { f with deferring := b })
  | _, .reify id arguments, m => ((), { m with snapshots := (id, arguments) :: m.snapshots })
  | _, .frameArgument id name, m => (m.frameArgument? id name, m)
  | _, .depth, m => (m.depth, m)
  | _, .tick, m => (m.tick, m)
  | _, .backtrace, m => (m.backtrace, m)
  | _, .freshIdentity, m => (m.nextIdentity, { m with nextIdentity := m.nextIdentity + 1 })
  | _, .poll, m => m.poll
  | _, .requestStop, m => ((), { m with interrupt := true })
  | _, .printLine s, m => ((), { m with printed := m.printed ++ s ++ "\n" })
  | _, .takePrinted, m => (m.printed, { m with printed := "" })
  | _, .note e, m => ((), m.note e)
  | _, .noteState id state, m =>
    ((), if m.config.traceSteps then m.note (.stepState m.tick id state) else m)
  | _, .mark _, m => ((), m)

end Homoicon
