import Mathlib.Logic.Relation
import Homoicon.Proofs.Foresight
import Homoicon.Proofs.LastValue

/-!
# Deferral

An enfixed action that waits for an enclosing call marks the feed.  The mark is meant to be taken
away by the step of that call, which takes the action on.  A step that evaluates no argument does
so whenever the action is still there and there is a value for it.  Otherwise the mark outlives the
expression, and the steps after it begin with a deferral that is none of theirs.
-/

namespace Homoicon

namespace Machine

def defers (m : Machine) (feed : FeedId) : Bool := (m.feed feed).deferring

def wordAction? (m : Machine) (feed : FeedId) : Option Value → Option (String × Action)
  | some (.word name) =>
    match m.lookup (m.feed feed).scope name with
    | some (.action _ a) => some (name, a)
    | _ => none
  | _ => none

/-- The enfixed action that comes next on a feed and takes an evaluated left operand. -/
def operator? (m : Machine) (feed : FeedId) : Option (String × Action) :=
  (m.wordAction? feed (m.feed feed).peek).filter fun (_, a) => a.enfixed && !a.quotesFirst

theorem defers_updateFeed (m : Machine) (id feed : FeedId) {f : Feed → Feed}
    (hf : ∀ fd, (f fd).deferring = fd.deferring) :
    (m.updateFeed id f).defers feed = m.defers feed := by
  rw [defers, defers, feed_updateFeed]
  split
  · rw [hf]
  · rfl

end Machine

theorem wordAction?_eq (m : Machine) (feed : FeedId) (unit? : Option Value) :
    wordAction? feed unit? m = (.done (m.wordAction? feed unit?), m) := by
  cases unit? with
  | none => rfl
  | some unit =>
    cases unit with
    | word name =>
      simp only [wordAction?, Machine.wordAction?, Eval.run_bind, Eval.scopeOf, Eval.lookup,
        Eval.run_command, Command.run]
      cases m.lookup (m.feed feed).scope name with
      | none => rfl
      | some v => cases v <;> rfl
    | _ => rfl

/-! ### The end of a step -/

/-- A frame that evaluates no argument, in a step that nothing keeps from looking ahead. -/
structure Frame.Open (frame : Frame) : Prop where
  fulfilling : frame.fulfilling = false
  noLookahead : frame.noLookahead = false

/-- A step that has got this far: it began with no deferral, and if one is pending at its end, the
action that waited is gone, or there is no value for it. -/
def StepState.Settles (m : Machine) (frame : Frame) : StepState → Prop
  | .start | .lookbackQuote _ | .dispatch _ => m.defers frame.feed = false
  | .processAction _ | .postSwitch => True
  | .finished => m.defers frame.feed = true → ∀ label a, m.operator? frame.feed = some (label, a) →
      frame.out.stale = true ∧ a.toleratesAbsentLeft = false

/-- What a state of a step in an open frame leaves for the next one. -/
structure Frame.Passes (frame frame' : Frame) (state : StepState) (m : Machine) : Prop where
  feed : frame'.feed = frame.feed
  isOpen : frame'.Open
  settles : state.Settles m frame'

namespace Evaluator

variable {ev : Evaluator} {frame frame' : Frame} {state state' : StepState} {m m' : Machine}

/-- Brings a step to where it evaluates its unit: no stop was taken up, the unit is no barrier, and
no action claims it. -/
def opening (frame : Frame) : Eval (Option (Frame × Value)) := do
  let noLookahead ← Eval.takeNoLookahead frame.feed
  let frame := { frame with out := frame.out.markStale, noLookahead }
  match ← Eval.poll with
  | some _ => return none
  | none =>
    noteState frame StepState.start.name
    match ← Eval.peek frame.feed with
    | none | some .comma => return none
    | some unit =>
      noteState frame (StepState.lookbackQuote unit).name
      match ← leftClaim? frame.feed unit with
      | some _ => return none
      | none => return some (frame, unit)

/-- What a step has done when it comes to evaluate its unit. -/
structure Opened (frame : Frame) (m : Machine) (frame' : Frame) (m' : Machine) : Prop where
  frame_eq : frame' =
    { frame with out := frame.out.markStale, noLookahead := (m.feed frame.feed).noLookahead }
  scopes : m'.scopes = m.scopes
  feeds : m'.feeds = (m.updateFeed frame.feed fun f => { f with noLookahead := false }).feeds

theorem drive_of_done {fuel : Nat} (hne : state ≠ .finished) {m₁ : Machine}
    (hnote : noteState frame state.name m = (.done (), m₁))
    (h : ev.transition frame state m₁ = (.done (frame', state'), m')) :
    ev.drive (fuel + 1) frame state m = ev.drive fuel frame' state' m' := by
  have hcatch : (ev.transition frame state).catchSignal m₁ = (.done (.ok (frame', state')), m') := by
    rw [Eval.run_catchSignal, h]
    rfl
  rw [drive_of_ne hne, Eval.run_bind_of_done hnote, Eval.run_bind_of_done hcatch]
  rfl

theorem transition_start {unit : Value} (hpeek : (m.feed frame.feed).peek = some unit)
    (hunit : unit ≠ .comma) :
    ev.transition frame .start m = (.done (frame, .lookbackQuote unit), m) := by
  have hstart : startStep frame m = (.done (.lookbackQuote unit), m) := by
    unfold startStep
    have hrun : Eval.peek frame.feed m = (.done (some unit), m) := by
      rw [← hpeek]
      rfl
    rw [Eval.run_bind_of_done hrun]
    cases unit with
    | comma => exact absurd rfl hunit
    | _ => rfl
  show (startStep frame >>= fun state => pure (frame, state)) m = _
  rw [Eval.run_bind_of_done hstart]
  rfl

theorem Opened.feed (h : Opened frame m frame' m') : m'.feed frame.feed =
    (m.updateFeed frame.feed fun f => { f with noLookahead := false }).feed frame.feed := by
  rw [Machine.feed, h.feeds]
  rfl

theorem Opened.defers (h : Opened frame m frame' m') :
    m'.defers frame.feed = m.defers frame.feed := by
  rw [Machine.defers, h.feed]
  exact m.defers_updateFeed _ _ fun _ => rfl

theorem Opened.wordAction? (h : Opened frame m frame' m') (unit? : Option Value) :
    m'.wordAction? frame.feed unit? = m.wordAction? frame.feed unit? := by
  have hscope : (m'.feed frame.feed).scope = (m.feed frame.feed).scope := by
    rw [h.feed, Machine.feed_updateFeed]
    split <;> rfl
  unfold Machine.wordAction? Machine.lookup
  rw [hscope, h.scopes]

/-! ### A word for an enfixed action without a left operand -/

theorem resolve_action {a : Action} {id : Identity} {feed : FeedId} {name : String}
    (h : m.lookup (m.feed feed).scope name = some (.action id a)) :
    Eval.resolve feed name m = (.done (.action id a), m) := by
  have hget : Eval.resolveGet feed name m = (.done (.action id a), m) := by
    unfold Eval.resolveGet
    simp only [Eval.run_bind, Eval.scopeOf, Eval.lookup, Eval.run_command, Command.run, h]
    rfl
  unfold Eval.resolve
  rw [Eval.run_bind_of_done hget]
  rfl

def afterStep (ev : Evaluator) (suppressed : Bool) (fuel : Nat) (stepped : Stepped) :
    Eval Stepped := do
  match stepped.signal with
  | some _ => return stepped
  | none =>
    let ended ← Eval.atArgumentEnd stepped.frame.feed
    if !stepped.frame.out.stale || ended then return stepped
    else ev.stepToVisible suppressed fuel stepped.frame

theorem stepToVisible_succ (ev : Evaluator) (suppressed : Bool) (fuel : Nat) (frame : Frame) :
    ev.stepToVisible suppressed (fuel + 1) frame =
      Eval.onlyIf suppressed (Eval.setNoLookahead frame.feed) >>= fun _ =>
        ev.step frame >>= ev.afterStep suppressed fuel := rfl

end Evaluator

/-! ### From step to step -/

/-- A step about to begin, with how deep the code in it may nest. -/
structure StepPoint where
  nesting : Nat
  frame : Frame
  machine : Machine

namespace StepPoint

variable {patience : Nat} {s s' : StepPoint} {frame : Frame} {m : Machine}

def defers (s : StepPoint) : Bool := s.machine.defers s.frame.feed

def run (patience : Nat) (s : StepPoint) : Outcome Stepped × Machine :=
  stepWithin patience s.nesting s.frame s.machine

def withRequest (requested : Bool) (feed : FeedId) (m : Machine) : Machine :=
  if requested then m.updateFeed feed fun f => { f with noLookahead := true } else m

/-- The first step of an expression that is evaluated in a frame of its own.  A request not to look
ahead is taken up and made again. -/
def ofExpression (nesting : Nat) (feed : FeedId) (fulfilling : Bool) (m : Machine) : StepPoint where
  nesting := nesting
  frame := { id := m.nextFrame, feed, fulfilling }
  machine := withRequest (m.feed feed).noLookahead feed
    ((m.enter none).updateFeed feed fun f => { f with noLookahead := false })

/-- The steps that a step leads to on the same feed. -/
inductive Leads (patience : Nat) : StepPoint → StepPoint → Prop where
  /-- The next step of the frame.  An argument is stepped on only while it has no value. -/
  | next {s : StepPoint} {frame : Frame} {m : Machine} (requested : Bool)
    (run : s.run patience = (.done { frame }, m))
    (novalue : s.frame.fulfilling = true → frame.out.stale = true) :
    Leads patience s ⟨s.nesting, frame, withRequest requested frame.feed m⟩
  | rightSide {nesting : Nat} {frame frame' : Frame} {m m' : Machine} {target : Value}
    (opens : Evaluator.opening frame m = (.done (some (frame', target)), m'))
    (assigns : (∃ name, target = .setWord name) ∨ ∃ items, target = .setPath items) :
    Leads patience ⟨nesting + 1, frame, m⟩
      (ofExpression nesting frame.feed false (m'.updateFeed frame.feed Feed.advance))

theorem evalExpression_begins (ev : Evaluator) (feed : FeedId) (fulfilling : Bool) (nesting : Nat)
    (h : ¬m.config.maxDepth ≤ m.depth) :
    ev.evalExpression feed fulfilling m =
      let s := ofExpression nesting feed fulfilling m
      let r := (ev.step s.frame >>= fun stepped => do
        let stepped ← ev.afterStep (m.feed feed).noLookahead (m.units feed) stepped
        let frame ← stepped.frameOrThrow
        return frame.out.get?) s.machine
      (r.1.leave none, r.2.leave m.nextFrame) := by
  let frame : Frame := { id := m.nextFrame, feed, fulfilling }
  let m₁ := (m.enter none).updateFeed feed fun f => { f with noLookahead := false }
  have htake : Eval.takeNoLookahead frame.feed (m.enter none) =
      (.done (m.feed feed).noLookahead, m₁) := rfl
  have hunits : Eval.unitsLeft frame.feed m₁ = (.done (m.units feed), m₁) := by
    have hsame : m₁.units feed = m.units feed :=
      (m.enter none).units_updateFeed feed feed fun _ => rfl
    rw [← hsame]
    rfl
  have hrequest : Eval.onlyIf (m.feed feed).noLookahead (Eval.setNoLookahead frame.feed) m₁ =
      (.done (), withRequest (m.feed feed).noLookahead feed m₁) := by
    cases (m.feed feed).noLookahead <;> rfl
  unfold Evaluator.evalExpression withFrame
  rw [Eval.run_inFrame h]
  have hbody : (ev.stepVisible frame >>= fun stepped => do
        let frame ← stepped.frameOrThrow
        return frame.out.get?) (m.enter none) = (ev.step frame >>= fun stepped => do
        let stepped ← ev.afterStep (m.feed feed).noLookahead (m.units feed) stepped
        let frame ← stepped.frameOrThrow
        return frame.out.get?) (withRequest (m.feed feed).noLookahead feed m₁) := by
    unfold Evaluator.stepVisible
    rw [Eval.bind_assoc, Eval.run_bind_of_done htake, Eval.bind_assoc, Eval.run_bind_of_done hunits,
      ev.stepToVisible_succ, Eval.bind_assoc, Eval.run_bind_of_done hrequest, Eval.bind_assoc]
  show (Outcome.leave none ((ev.stepVisible frame >>= _) (m.enter none)).1,
    ((ev.stepVisible frame >>= _) (m.enter none)).2.leave m.nextFrame) = _
  rw [hbody]
  rfl

end StepPoint

end Homoicon
