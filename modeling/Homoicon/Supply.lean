import Homoicon.Session

/-!
# Supplies

The units of a feed come from one of two supplies.  Code that exists as a whole is read through a
cursor and stays as it is; what a host hands over item by item waits in a queue and leaves it.  A
feed of `Feed.lean` keeps just the units that are left, whichever supply they come from.

A machine with supplied feeds runs the same evaluations.  `view` is the machine as every other module
knows it.
-/

namespace Homoicon

inductive Supply where
  /-- Units that are read in place; the cursor stands at the current one. -/
  | array (units : Array Value) (cursor : Nat)
  /-- Units that leave the queue at its front. -/
  | queue (units : List Value)

namespace Supply

def peek : Supply → Option Value
  | array units cursor => units[cursor]?
  | queue units => units.head?

def peekNext : Supply → Option Value
  | array units cursor => units[cursor + 1]?
  | queue units => units[1]?

/-- The current unit, if there is one, and the supply behind it. -/
def next : Supply → Option Value × Supply
  | array units cursor =>
    match units[cursor]? with
    | some unit => (some unit, array units (cursor + 1))
    | none => (none, array units cursor)
  | queue [] => (none, queue [])
  | queue (unit :: units) => (some unit, queue units)

/-- The units that are left. -/
def units : Supply → List Value
  | array units cursor => units.toList.drop cursor
  | queue units => units

/-- The queue of what a list of items comes to; the first item that does not scan decides the
error. -/
def ofItems (items : List FeedItem) : Except Source.ScanError Supply :=
  (Feed.unitsOfItems items).map queue

end Supply

/-- A feed over a supply. -/
structure SuppliedFeed where
  supply : Supply
  scope : ScopeId
  lookback : Option Value := none
  noLookahead : Bool := false
  deferring : Bool := false

namespace SuppliedFeed

instance : Inhabited SuppliedFeed := ⟨{ supply := .queue [], scope := 0 }⟩

/-- A feed over code that exists as a whole. -/
def ofUnits (units : List Value) (scope : ScopeId) : SuppliedFeed :=
  { supply := .array units.toArray 0, scope }

/-- The feed behind its current unit, which becomes the lookback. -/
def advance (f : SuppliedFeed) : SuppliedFeed :=
  match f.supply.next with
  | (some unit, supply) => { f with supply, lookback := some unit }
  | (none, supply) => { f with supply }

/-- The feed without its supply. -/
def view (f : SuppliedFeed) : Feed :=
  { units := f.supply.units
    scope := f.scope
    lookback := f.lookback
    noLookahead := f.noLookahead
    deferring := f.deferring }

end SuppliedFeed

/-- A machine whose feeds have supplies.  Everything else is in `rest`, whose own feeds are not
used. -/
structure SuppliedMachine where
  rest : Machine
  feeds : Array SuppliedFeed := #[]

namespace SuppliedMachine

def feed (h : SuppliedMachine) (id : FeedId) : SuppliedFeed := h.feeds.getD id default

def updateFeed (h : SuppliedMachine) (id : FeedId) (f : SuppliedFeed → SuppliedFeed) :
    SuppliedMachine :=
  { h with feeds := h.feeds.modify id f }

def addFeed (h : SuppliedMachine) (f : SuppliedFeed) : SuppliedMachine :=
  { h with feeds := h.feeds.push f }

def enter (h : SuppliedMachine) (label : Option String) : SuppliedMachine :=
  { h with rest := h.rest.enter label }

def leave (h : SuppliedMachine) (id : FrameId) : SuppliedMachine :=
  { h with rest := h.rest.leave id }

/-- The machine without the supplies of its feeds. -/
def view (h : SuppliedMachine) : Machine :=
  { h.rest with feeds := h.feeds.map SuppliedFeed.view }

end SuppliedMachine

/-- What a command asks of a feed goes to its supply, everything else to the rest of the machine. -/
def Command.runSupplied : {β : Type} → Command β → SuppliedMachine → β × SuppliedMachine
  | _, .newFeed units scope, h => (h.feeds.size, h.addFeed (.ofUnits units scope))
  | _, .feed id, h => ((h.feed id).view, h)
  | _, .scopeOf id, h => ((h.feed id).scope, h)
  | _, .peek id, h => ((h.feed id).supply.peek, h)
  | _, .peekNext id, h => ((h.feed id).supply.peekNext, h)
  | _, .lookback id, h => ((h.feed id).lookback, h)
  | _, .unitsLeft id, h => ((h.feed id).supply.units.length, h)
  | _, .advance id, h => ((), h.updateFeed id SuppliedFeed.advance)
  | _, .noLookahead id, h => ((h.feed id).noLookahead, h)
  | _, .setNoLookahead id b, h => ((), h.updateFeed id fun f => { f with noLookahead := b })
  | _, .deferring id, h => ((h.feed id).deferring, h)
  | _, .setDeferring id b, h => ((), h.updateFeed id fun f => { f with deferring := b })
  | _, c, h =>
    match c.run h.rest with
    | (b, rest) => (b, { h with rest })

/-- Runs an evaluation on a machine with supplied feeds. -/
def Eval.runSupplied : {α : Type} → Eval α → SuppliedMachine → Outcome α × SuppliedMachine
  | _, .done a, h => (.done a, h)
  | _, .signal s, h => (.thrown s, h)
  | _, .fail f, h => (.failed f, h)
  | _, .exhaust, h => (.exhausted, h)
  | _, .ask c next, h =>
    match c.runSupplied h with
    | (b, h) => (next b).runSupplied h
  | _, .inFrame label body next, h =>
    if h.rest.config.maxDepth ≤ h.rest.depth then
      (.failed (.of (.stackOverflow h.rest.depth)), h)
    else
      let id := h.rest.nextFrame
      match (body id).runSupplied (h.enter label) with
      | (.done b, h) => (next b).runSupplied (h.leave id)
      | (.thrown s, h) => (.thrown s, h.leave id)
      | (.failed f, h) => (.failed (f.inCall? label), h.leave id)
      | (.exhausted, h) => (.exhausted, h.leave id)
  | _, .seeSignal x next, h =>
    match x.runSupplied h with
    | (.done b, h) => (next (.ok b)).runSupplied h
    | (.thrown s, h) => (next (.error s)).runSupplied h
    | (.failed f, h) => (.failed f, h)
    | (.exhausted, h) => (.exhausted, h)
  | _, .seeFault x next, h =>
    match x.runSupplied h with
    | (.done b, h) => (next (.ok b)).runSupplied h
    | (.thrown s, h) => (.thrown s, h)
    | (.failed f, h) => (next (.error f)).runSupplied h
    | (.exhausted, h) => (.exhausted, h)

/-- A session on a machine with supplied feeds. -/
structure SuppliedSession where
  machine : SuppliedMachine
  lib : ScopeId
  user : ScopeId

namespace SuppliedSession

def view (s : SuppliedSession) : Session := ⟨s.machine.view, s.lib, s.user⟩

def noteFinished (s : SuppliedSession) (start : Nat) : SuppliedSession :=
  let rest := s.machine.rest
  { s with machine := { s.machine with rest := rest.note (.finished (rest.tick - start)) } }

/-- What the host gets of a run that began at tick `start`, and the session after it. -/
def answer (s : SuppliedSession) (start : Nat) :
    Outcome (Option Value) × SuppliedMachine → HostResult × SuppliedSession
  | (.done v, machine) => (.ok (v.getD .void), { s with machine }.noteFinished start)
  | (.thrown signal, machine) =>
    (.error (.signal signal), { s with machine }.noteFinished start)
  | (.failed f, machine) => (.error (.fault f), { s with machine })
  | (.exhausted, machine) => (.error .exhausted, { s with machine })

/-- Runs a new feed over a supply to its end, in the scope of the user. -/
def evalSupply (s : SuppliedSession) (supply : Supply) : HostResult × SuppliedSession :=
  let evaluator := Evaluator.ofConfig s.machine.rest.config
  let opened := s.machine.addFeed { supply, scope := s.user }
  s.answer s.machine.rest.tick ((evaluator.runFeed s.machine.feeds.size).runSupplied opened)

/-- Runs code that exists as a whole. -/
def evalArray (s : SuppliedSession) (units : List Value) : HostResult × SuppliedSession :=
  s.evalSupply (.array units.toArray 0)

/-- Runs what a host hands over item by item. -/
def evalItems (s : SuppliedSession) (items : List FeedItem) : HostResult × SuppliedSession :=
  match Supply.ofItems items with
  | .ok supply => s.evalSupply supply
  | .error e => (.error (.scan e), s)

end SuppliedSession

end Homoicon
