import Homoicon.Proofs.Deferral
import Homoicon.Proofs.Life
import Homoicon.Proofs.Specializing

/-!
# Quoting

A value that is quoted unless it is inert evaluates to itself, whatever its kind and whatever stands
beside it.  A feed of such units takes one step for each of them, gives the values in their order
and changes no binding; running it comes to the last value, reducing it to all but the nulls.

A stop that was requested is taken up at the checkpoint of a step, before the unit is looked at.  It
cuts the run short and changes nothing else about it.
-/

namespace Homoicon

namespace Machine

/-- The first signal that the next `n` checkpoints give. -/
def nextStop : Nat → Machine → Option Signal
  | 0, _ => none
  | n + 1, m => m.poll.1.or (nextStop n m.poll.2)

/-- Two machines that come to the same checkpoints. -/
structure SameClock (m m' : Machine) : Prop where
  config : m'.config = m.config
  tick : m'.tick = m.tick
  countdown : m'.countdown = m.countdown
  interrupt : m'.interrupt = m.interrupt
  hook : m'.hook = m.hook

section

variable {m m' : Machine}

theorem SameClock.note (h : SameClock m m') (e e' : Event) :
    SameClock (m.note e) (m'.note e') := by
  obtain ⟨_, hm⟩ := m.note_eq e
  obtain ⟨_, hm'⟩ := m'.note_eq e'
  rw [hm, hm']
  exact ⟨h.config, h.tick, h.countdown, h.interrupt, h.hook⟩

theorem SameClock.poll (h : SameClock m m') :
    m'.poll.1 = m.poll.1 ∧ SameClock m.poll.2 m'.poll.2 := by
  unfold Machine.poll
  simp only [h.config, h.tick, h.countdown, h.interrupt, h.hook]
  split
  · exact ⟨rfl, rfl, rfl, rfl, rfl, rfl⟩
  · cases m.hook with
    | none =>
      dsimp only
      split
      · refine ⟨rfl, SameClock.note ?_ _ _⟩
        exact ⟨rfl, rfl, rfl, rfl, rfl⟩
      · exact ⟨rfl, rfl, rfl, rfl, rfl, rfl⟩
    | some ask =>
      dsimp only
      split
      · refine ⟨rfl, SameClock.note ?_ _ _⟩
        exact ⟨rfl, rfl, rfl, rfl, rfl⟩
      · exact ⟨rfl, rfl, rfl, rfl, rfl, rfl⟩

theorem nextStop_congr (h : SameClock m m') (n : Nat) : m'.nextStop n = m.nextStop n := by
  induction n generalizing m m' with
  | zero => rfl
  | succ n ih =>
    obtain ⟨hsignal, hclock⟩ := h.poll
    rw [nextStop, nextStop, hsignal, ih hclock]

theorem nextStop_undisturbed (hinterrupt : m.interrupt = false)
    (hhook : ∀ ask, m.hook = some ask → ∀ tick, ask tick = false) (n : Nat) :
    m.nextStop n = none := by
  induction n generalizing m with
  | zero => rfl
  | succ n ih =>
    obtain ⟨_, _, hpoll⟩ := m.poll_undisturbed hinterrupt hhook
    rw [nextStop, hpoll]
    exact ih hinterrupt hhook

end

def checked (m : Machine) (feed : FeedId) : Machine :=
  m.poll.2.updateFeed feed fun f => { f with noLookahead := false }

variable (m : Machine) (feed : FeedId)

@[simp] theorem checked_scopes : (m.checked feed).scopes = m.scopes := by
  obtain ⟨_, _, _, _, h⟩ := m.poll_eq
  rw [checked, h]
  rfl

@[simp] theorem checked_tick : (m.checked feed).tick = m.tick + 1 := by
  obtain ⟨_, _, _, _, h⟩ := m.poll_eq
  rw [checked, h]
  rfl

theorem checked_feed_units : ((m.checked feed).feed feed).units = (m.feed feed).units := by
  obtain ⟨_, _, _, _, h⟩ := m.poll_eq
  rw [checked, feed_updateFeed, h]
  split <;> rfl

theorem advance_feed_units {m : Machine} {feed : FeedId} {unit : Value} {rest : List Value}
    (h : (m.feed feed).units = unit :: rest) :
    ((m.updateFeed feed Feed.advance).feed feed).units = rest := by
  have hid : feed < m.feeds.size := by
    apply lt_size_of_units
    rw [units, h]
    exact Nat.succ_pos _
  rw [feed_updateFeed, if_pos ⟨rfl, hid⟩, Feed.advance_cons h]

/-- What a step leaves that takes one unit of a feed, with `rest` behind it, and touches nothing
else. -/
structure Took (m : Machine) (feed : FeedId) (rest : List Value) (m' : Machine) : Prop where
  units : (m'.feed feed).units = rest
  scopes : m'.scopes = m.scopes
  tick : m'.tick = m.tick + 1
  clock : m.poll.2.SameClock m'

theorem took_of_checked {m : Machine} {feed : FeedId} {unit : Value} {rest : List Value}
    (h : ((m.checked feed).feed feed).units = unit :: rest) (journal : Array Event) :
    m.Took feed rest { (m.checked feed).updateFeed feed Feed.advance with journal } := by
  obtain ⟨_, _, _, _, hpoll⟩ := m.poll_eq
  have hrest := advance_feed_units h
  rw [feed_eq, checked, hpoll] at hrest
  rw [checked, hpoll]
  refine ⟨?_, rfl, rfl, ?_⟩
  · rw [feed_eq]
    exact hrest
  · rw [hpoll]
    exact ⟨rfl, rfl, rfl, rfl, rfl⟩

def opened (m : Machine) (units : List Value) (scope : ScopeId) : Machine :=
  { m with feeds := m.feeds.push { units, scope } }.enter none

theorem opened_units (m : Machine) (units : List Value) (scope : ScopeId) :
    ((m.opened units scope).feed m.feeds.size).units = units := by
  show (Machine.feed { m with feeds := m.feeds.push { units, scope } } m.feeds.size).units = units
  rw [feed_eq, Array.getElem?_push_size]
  rfl

def freshFrame (m : Machine) : Frame := { id := m.nextFrame, feed := m.feeds.size }

end Machine

def Frame.begun (frame : Frame) (m : Machine) : Frame :=
  { frame with out := frame.out.markStale, noLookahead := (m.feed frame.feed).noLookahead }

/-- Whatever the journal of `m` holds, `x` ends with `o` and leaves `m'` but for its journal. -/
def Eval.ComesTo {α : Type} (x : Eval α) (m : Machine) (o : Outcome α) (m' : Machine) : Prop :=
  ∀ journal, ∃ journal', x { m with journal } = (o, { m' with journal := journal' })

namespace Evaluator

/-! ### One step -/

section

variable {ev : Evaluator} {frame frame' : Frame} {state state' : StepState} {m m₁ : Machine}
  {unit v : Value} {rest : List Value} {fuel : Nat}

theorem drive_round {o : Outcome Stepped} {m' : Machine} (hne : state ≠ .finished)
    (h : ∀ journal, ev.transition frame state { m with journal } =
      (.done (frame', state'), { m₁ with journal }))
    (hrest : (ev.drive fuel frame' state').ComesTo m₁ o m') :
    (ev.drive (fuel + 1) frame state).ComesTo m o m' := by
  intro journal
  obtain ⟨journal₁, hnote⟩ := noteState_run frame state.name { m with journal }
  obtain ⟨journal', hrun⟩ := hrest journal₁
  exact ⟨journal', (drive_of_done hne hnote (h journal₁)).trans hrun⟩

theorem drive_over : (ev.drive (fuel + 1) frame .finished).ComesTo m (.done { frame }) m := by
  intro journal
  obtain ⟨journal', hnote⟩ := noteState_run frame StepState.finished.name { m with journal }
  refine ⟨journal', ?_⟩
  rw [drive_finished, Eval.run_bind_of_done hnote]
  rfl

theorem transition_lookbackQuote_unclaimed
    (h : ∀ name, (m.feed frame.feed).peekNext ≠ some (.word name)) :
    ev.transition frame (.lookbackQuote unit) m = (.done (frame, .dispatch unit), m) := by
  have hfree : claimOf m frame.feed unit (m.feed frame.feed).peekNext = none := by
    unfold claimOf
    split
    · rename_i name hnext
      exact absurd hnext (h name)
    · rfl
  rw [transition_lookbackQuote, hfree]
  rfl

theorem transition_dispatch_literal (hunit : Stage.Literal unit v) :
    ev.transition frame (.dispatch unit) m =
      (.done ({ frame with out := frame.out.set v }, .postSwitch),
        m.updateFeed frame.feed Feed.advance) := by
  cases hunit with
  | inert h => cases unit <;> first | (cases h; done) | rfl
  | quoted v => rfl

theorem transition_postSwitch_over
    (h : ∀ name, (m.feed frame.feed).peek ≠ some (.word name)) :
    ev.transition frame .postSwitch m = (.done (frame, .finished), m) := by
  have hrun : Eval.peek frame.feed m = (.done (m.feed frame.feed).peek, m) := rfl
  have haction : wordAction? frame.feed (m.feed frame.feed).peek m = (.done none, m) := by
    unfold wordAction?
    split
    · rename_i name hnext
      exact absurd hnext (h name)
    · rfl
  show postSwitch frame m = _
  unfold postSwitch
  rw [Eval.run_bind_of_done hrun, Eval.run_bind_of_done haction]
  rfl

/-- A unit that gives a value by itself, before something that is no word, passes through the states
of a step. -/
theorem drive_literal (hunit : Stage.Literal unit v)
    (hunits : (m.feed frame.feed).units = unit :: rest)
    (hrest : ∀ name, rest.head? ≠ some (.word name)) :
    (ev.drive (fuel + 5) frame .start).ComesTo m
      (.done { frame := { frame with out := frame.out.set v } })
      (m.updateFeed frame.feed Feed.advance) := by
  have hpeek : (m.feed frame.feed).peek = some unit := by rw [Feed.peek, hunits, List.head?_cons]
  have hnext : (m.feed frame.feed).peekNext = rest.head? := Feed.peekNext_cons hunits
  have hbehind : ((m.updateFeed frame.feed Feed.advance).feed frame.feed).peek = rest.head? := by
    rw [Feed.peek, Machine.advance_feed_units hunits]
  refine drive_round (by simp) (fun _ => transition_start hpeek hunit.ne_comma) ?_
  refine drive_round (by simp) (fun _ => transition_lookbackQuote_unclaimed (hnext ▸ hrest)) ?_
  have hdispatch : ∀ journal, ev.transition frame (.dispatch unit) { m with journal } =
      (.done ({ frame with out := frame.out.set v }, .postSwitch),
        { m.updateFeed frame.feed Feed.advance with journal }) := fun _ =>
    transition_dispatch_literal hunit
  refine drive_round (by simp) hdispatch ?_
  exact drive_round (by simp) (fun _ => transition_postSwitch_over (hbehind ▸ hrest)) drive_over

theorem evalStep_eq (ev : Evaluator) (frame : Frame) (m : Machine) :
    ev.evalStep frame m =
      match m.poll.1 with
      | some s => (.done { frame := frame.begun m, signal := some s }, m.checked frame.feed)
      | none =>
        ev.drive (2 * m.units frame.feed + 4) (frame.begun m) .start (m.checked frame.feed) := by
  let reset : Feed → Feed := fun f => { f with noLookahead := false }
  have htake : Eval.takeNoLookahead frame.feed m =
      (.done (m.feed frame.feed).noLookahead, m.updateFeed frame.feed reset) := rfl
  have hpoll : Eval.poll (m.updateFeed frame.feed reset) =
      (.done m.poll.1, m.checked frame.feed) := by
    have h : Eval.poll (m.updateFeed frame.feed reset) =
        (.done (m.updateFeed frame.feed reset).poll.1, (m.updateFeed frame.feed reset).poll.2) := rfl
    rw [h, Machine.updateFeed_poll]
    rfl
  have hleft : Eval.unitsLeft frame.feed (m.checked frame.feed) =
      (.done (m.units frame.feed), m.checked frame.feed) := by
    rw [Machine.units, ← m.checked_feed_units]
    rfl
  unfold evalStep
  rw [Eval.run_bind_of_done htake, Eval.run_bind_of_done hpoll]
  cases m.poll.1 with
  | some s => rfl
  | none =>
    dsimp only
    rw [Eval.run_bind_of_done hleft]
    rfl

theorem evalStep_literal (h : m.poll.1 = none) (hunit : Stage.Literal unit v)
    (hunits : (m.feed frame.feed).units = unit :: rest)
    (hrest : ∀ name, rest.head? ≠ some (.word name)) :
    ∃ frame' m', ev.evalStep frame m = (.done { frame := frame' }, m') ∧
      frame'.feed = frame.feed ∧ frame'.out = ⟨some v, false⟩ ∧ m.Took frame.feed rest m' := by
  have hchecked : ((m.checked frame.feed).feed frame.feed).units = unit :: rest := by
    rw [m.checked_feed_units, hunits]
  have hdrive : (ev.drive (2 * rest.length + 1 + 5) (frame.begun m) .start).ComesTo _ _ _ :=
    drive_literal hunit hchecked hrest
  have hfuel : 2 * m.units frame.feed + 4 = 2 * rest.length + 1 + 5 := by
    rw [Machine.units, hunits, List.length_cons]
    omega
  obtain ⟨journal, hrun⟩ := hdrive (m.checked frame.feed).journal
  let frame' : Frame := { frame.begun m with out := ⟨some v, false⟩ }
  let m' : Machine := { (m.checked frame.feed).updateFeed frame.feed Feed.advance with journal }
  have hstep : ev.evalStep frame m = (.done { frame := frame' }, m') := by
    rw [evalStep_eq, h, hfuel]
    exact hrun
  exact ⟨frame', m', hstep, rfl, rfl, Machine.took_of_checked hchecked journal⟩

end

/-! ### Many steps -/

/-- Steps of a frame that give the values `vs`.  Each of them takes one unit and gives one value,
which is visible, and changes no binding.  They go on to the end of the feed or to a signal. -/
inductive Yields (ev : Evaluator) :
    Frame → Machine → List Value → Option Signal → Frame → Machine → Prop
  | ended {frame : Frame} {m : Machine} (none_left : (m.feed frame.feed).units = []) :
    Yields ev frame m [] none frame m
  | stopped {frame frame' : Frame} {m m' : Machine} {s : Signal}
    (more : (m.feed frame.feed).units ≠ [])
    (step : ev.step frame m = (.done { frame := frame', signal := some s }, m'))
    (scopes : m'.scopes = m.scopes) : Yields ev frame m [] (some s) frame' m'
  | value {frame frame₁ frame' : Frame} {m m₁ m' : Machine} {unit v : Value} {vs : List Value}
    {stop : Option Signal}
    (step : ev.step frame m = (.done { frame := frame₁ }, m₁))
    (same : frame₁.feed = frame.feed)
    (taken : (m.feed frame.feed).units = unit :: (m₁.feed frame.feed).units)
    (visible : frame₁.out = ⟨some v, false⟩)
    (scopes : m₁.scopes = m.scopes) (tick : m₁.tick = m.tick + 1)
    (rest : Yields ev frame₁ m₁ vs stop frame' m') : Yields ev frame m (v :: vs) stop frame' m'

/-- A run comes to its result unless a signal stopped it. -/
def stoppedBy {α : Type} (stop : Option Signal) (a : α) : Outcome α :=
  match stop with
  | some s => .thrown s
  | none => .done a

theorem atEnd_of_nil {feed : FeedId} {m : Machine} (h : (m.feed feed).units = []) :
    Eval.atEnd feed m = (.done true, m) := by
  show (Outcome.done (m.feed feed).units.head?.isNone, m) = _
  rw [h]
  rfl

theorem atEnd_of_cons {feed : FeedId} {m : Machine} {unit : Value} {rest : List Value}
    (h : (m.feed feed).units = unit :: rest) : Eval.atEnd feed m = (.done false, m) := by
  show (Outcome.done (m.feed feed).units.head?.isNone, m) = _
  rw [h]
  rfl

section

variable {ev : Evaluator} {frame frame₁ : Frame} {feed : FeedId} {m m₁ : Machine} {unit v : Value}
  {rest : List Value}

theorem collect_ended (h : (m.feed feed).units = []) (fuel : Nat) (values : List Value) :
    reduceUnits.collect ev feed fuel frame values m = (.done values.reverse, m) := by
  cases fuel <;>
    · unfold reduceUnits.collect
      rw [Eval.run_bind_of_done (atEnd_of_nil h)]
      rfl

theorem collect_value (h : (m.feed feed).units = unit :: rest)
    (step : ev.step frame m = (.done { frame := frame₁ }, m₁)) (visible : frame₁.out.get? = some v)
    (fuel : Nat) (values : List Value) :
    reduceUnits.collect ev feed (fuel + 1) frame values m =
      reduceUnits.collect ev feed fuel frame₁ (if v.isNull then values else v :: values) m₁ := by
  have hgo : Stepped.frameOrThrow { frame := frame₁ } m₁ = (.done frame₁, m₁) := rfl
  rw [reduceUnits.collect, Eval.run_bind_of_done (atEnd_of_cons h), if_neg Bool.false_ne_true,
    Eval.run_bind_of_done step, Eval.run_bind_of_done hgo, visible]

end

namespace Yields

variable {ev : Evaluator} {frame frame' : Frame} {m m' : Machine} {vs : List Value}
  {stop : Option Signal}

theorem scopes_eq (h : ev.Yields frame m vs stop frame' m') : m'.scopes = m.scopes := by
  induction h with
  | ended _ => rfl
  | stopped _ _ scopes => exact scopes
  | value _ _ _ _ scopes _ _ ih => exact ih.trans scopes

theorem tick_eq (h : ev.Yields frame m vs none frame' m') : m'.tick = m.tick + vs.length := by
  generalize hstop : (none : Option Signal) = stop at h
  induction h with
  | ended _ => rfl
  | stopped _ _ _ => cases hstop
  | value _ _ _ _ _ tick _ ih =>
    rw [ih hstop, tick, List.length_cons]
    omega

theorem last_eq (h : ev.Yields frame m vs none frame' m') :
    frame'.out.last = vs.getLast?.or frame.out.last := by
  generalize hstop : (none : Option Signal) = stop at h
  induction h with
  | ended _ => rfl
  | stopped _ _ _ => cases hstop
  | @value _ _ _ _ _ _ _ v vs _ _ _ _ visible _ _ _ ih =>
    rw [ih hstop, visible, List.getLast?_cons]
    cases vs.getLast? <;> rfl

theorem stepToEnd (h : ev.Yields frame m vs stop frame' m') {fuel : Nat}
    (hfuel : m.units frame.feed ≤ fuel) :
    ev.stepToEnd fuel frame m = (stoppedBy stop frame', m') := by
  induction h generalizing fuel with
  | ended none_left =>
    cases fuel <;>
      · unfold Evaluator.stepToEnd
        rw [Eval.run_bind_of_done (atEnd_of_nil none_left)]
        rfl
  | stopped more step _ =>
    obtain ⟨unit, rest, hunits⟩ := List.exists_cons_of_ne_nil more
    obtain ⟨fuel, rfl⟩ : ∃ k, fuel = k + 1 := by
      rw [Machine.units, hunits, List.length_cons] at hfuel
      exact ⟨fuel - 1, by omega⟩
    unfold Evaluator.stepToEnd
    rw [Eval.run_bind_of_done (atEnd_of_cons hunits), if_neg Bool.false_ne_true,
      Eval.run_bind_of_done step]
    rfl
  | @value _ frame₁ _ _ m₁ _ _ _ _ _ step same taken _ _ _ _ ih =>
    rw [Machine.units, taken, List.length_cons] at hfuel
    obtain ⟨fuel, rfl⟩ : ∃ k, fuel = k + 1 := ⟨fuel - 1, by omega⟩
    have hfuel : m₁.units frame₁.feed ≤ fuel := by
      rw [Machine.units, same]
      omega
    unfold Evaluator.stepToEnd
    rw [Eval.run_bind_of_done (atEnd_of_cons taken), if_neg Bool.false_ne_true,
      Eval.run_bind_of_done step]
    exact ih hfuel

theorem collect (h : ev.Yields frame m vs stop frame' m') {feed : FeedId} (hfeed : frame.feed = feed)
    {fuel : Nat} (hfuel : m.units feed ≤ fuel) (values : List Value) :
    reduceUnits.collect ev feed fuel frame values m =
      (stoppedBy stop (values.reverse ++ vs.filter fun v => !v.isNull), m') := by
  induction h generalizing fuel values with
  | ended none_left =>
    rw [collect_ended (hfeed ▸ none_left), List.filter_nil, List.append_nil]
    rfl
  | stopped more step _ =>
    rw [hfeed] at more
    obtain ⟨unit, rest, hunits⟩ := List.exists_cons_of_ne_nil more
    obtain ⟨fuel, rfl⟩ : ∃ k, fuel = k + 1 := by
      rw [Machine.units, hunits, List.length_cons] at hfuel
      exact ⟨fuel - 1, by omega⟩
    unfold reduceUnits.collect
    rw [Eval.run_bind_of_done (atEnd_of_cons hunits), if_neg Bool.false_ne_true,
      Eval.run_bind_of_done step]
    rfl
  | @value _ frame₁ _ _ m₁ _ _ v vs stop step same taken visible _ _ _ ih =>
    rw [hfeed] at taken
    have hget : frame₁.out.get? = some v := by
      rw [visible]
      rfl
    rw [Machine.units, taken, List.length_cons] at hfuel
    obtain ⟨fuel, rfl⟩ : ∃ k, fuel = k + 1 := ⟨fuel - 1, by omega⟩
    rw [collect_value taken step hget, ih (same.trans hfeed) (Nat.le_of_succ_le_succ hfuel),
      List.filter_cons]
    cases hnull : v.isNull with
    | true => rfl
    | false => simp

end Yields

/-! ### Whole feeds -/

section

variable {ev inner : Evaluator} {frame : Frame} {m : Machine} {vs : List Value}

theorem head?_quoted_ne_word (vs : List Value) (name : String) :
    (vs.map Value.quotedIfNeeded).head? ≠ some (.word name) := by
  intro h
  obtain ⟨v, -, hv⟩ := List.mem_map.1 (List.mem_of_head? h)
  have hliteral := Stage.literal_quotedIfNeeded v
  rw [hv] at hliteral
  cases hliteral with
  | inert h => cases h

/-- Units that stand for values yield them, up to the step at which a stop is taken up. -/
theorem yields_quoted (hstep : ev.step = inner.evalStep)
    (hunits : (m.feed frame.feed).units = vs.map Value.quotedIfNeeded) :
    ∃ k frame' m', ev.Yields frame m (vs.take k) (m.nextStop vs.length) frame' m' ∧
      (m.nextStop vs.length = none → vs.take k = vs) := by
  induction vs generalizing frame m with
  | nil => exact ⟨0, frame, m, .ended hunits, fun _ => rfl⟩
  | cons v vs ih =>
    rw [List.map_cons] at hunits
    have hmore : (m.feed frame.feed).units ≠ [] := by simp [hunits]
    rw [List.length_cons, Machine.nextStop]
    -- the checkpoint of the first step decides whether its unit is looked at
    cases hpoll : m.poll.1 with
    | some s =>
      refine ⟨0, frame.begun m, _, .stopped hmore ?_ (m.checked_scopes frame.feed), fun h => ?_⟩
      · rw [hstep, evalStep_eq, hpoll]
      · cases h
    | none =>
      obtain ⟨frame₁, m₁, hrun, hsame, hout, took⟩ : ∃ frame₁ m₁, inner.evalStep frame m =
          (.done { frame := frame₁ }, m₁) ∧ frame₁.feed = frame.feed ∧ frame₁.out = ⟨some v, false⟩ ∧
          m.Took frame.feed (vs.map Value.quotedIfNeeded) m₁ :=
        evalStep_literal hpoll (Stage.literal_quotedIfNeeded v) hunits (head?_quoted_ne_word vs)
      have hleft : (m₁.feed frame₁.feed).units = vs.map Value.quotedIfNeeded := by
        rw [hsame]
        exact took.units
      obtain ⟨k, frame', m', hrest, hall⟩ := ih hleft
      -- the step behind the checkpoint does not touch what later checkpoints look at
      rw [Machine.nextStop_congr took.clock] at hrest hall
      have hstep₁ : ev.step frame m = (.done { frame := frame₁ }, m₁) := by
        rw [hstep]
        exact hrun
      have htaken : (m.feed frame.feed).units =
          v.quotedIfNeeded :: (m₁.feed frame.feed).units := by
        rw [hunits, took.units]
      refine ⟨k + 1, frame', m', ?_, fun h => ?_⟩
      · rw [List.take_succ_cons]
        exact .value hstep₁ hsame htaken hout took.scopes took.tick hrest
      · rw [List.take_succ_cons, hall h]

end

section

variable {ev : Evaluator} {frame' : Frame} {m m' : Machine} {units vs : List Value}
  {scope : ScopeId} {stop : Option Signal}

theorem runOnNewFeed {α : Type} {body : FeedId → Frame → Eval α} {a : α}
    (room : m.depth < m.config.maxDepth)
    (h : body m.feeds.size m.freshFrame (m.opened units scope) = (stoppedBy stop a, m')) :
    (Eval.newFeed units scope >>= fun feed => withFrame feed none (body feed)) m =
      (stoppedBy stop a, m'.leave m.nextFrame) := by
  let fed : Machine := { m with feeds := m.feeds.push { units, scope } }
  have hnew : Eval.newFeed units scope m = (.done m.feeds.size, fed) := rfl
  have hroom : ¬fed.config.maxDepth ≤ fed.depth := Nat.not_le.2 room
  unfold withFrame
  rw [Eval.run_bind_of_done hnew, Eval.run_inFrame hroom]
  show (((body m.feeds.size m.freshFrame) (m.opened units scope)).1.leave none,
    ((body m.feeds.size m.freshFrame) (m.opened units scope)).2.leave m.nextFrame) = _
  rw [h]
  cases stop <;> rfl

theorem Yields.runUnits (h : ev.Yields m.freshFrame (m.opened units scope) vs stop frame' m')
    (room : m.depth < m.config.maxDepth) :
    ev.runUnits units scope m = (stoppedBy stop vs.getLast?, m'.leave m.nextFrame) := by
  have hend : ev.stepToEnd ((m.opened units scope).units m.feeds.size) m.freshFrame
      (m.opened units scope) = (stoppedBy stop frame', m') := h.stepToEnd (Nat.le_refl _)
  have hleft : Eval.unitsLeft m.feeds.size (m.opened units scope) =
      (.done ((m.opened units scope).units m.feeds.size), m.opened units scope) := rfl
  refine runOnNewFeed room ?_
  rw [Eval.run_bind_of_done hleft, Eval.run_bind, hend]
  cases stop with
  | some s => rfl
  | none =>
    show (Outcome.done frame'.out.last, m') = _
    rw [h.last_eq]
    cases vs.getLast? <;> rfl

theorem Yields.reduceUnits (h : ev.Yields m.freshFrame (m.opened units scope) vs stop frame' m')
    (room : m.depth < m.config.maxDepth) :
    ev.reduceUnits units scope m =
      (stoppedBy stop (vs.filter fun v => !v.isNull), m'.leave m.nextFrame) := by
  have hfuel : (m.opened units scope).units m.feeds.size ≤ units.length :=
    Nat.le_of_eq (congrArg List.length (m.opened_units units scope))
  let body : FeedId → Frame → Eval (List Value) := fun _ frame =>
    reduceUnits.collect ev frame.feed units.length frame []
  have hbody : body m.feeds.size m.freshFrame (m.opened units scope) =
      (stoppedBy stop (vs.filter fun v => !v.isNull), m') := h.collect rfl hfuel []
  exact runOnNewFeed room hbody

end

end Evaluator

theorem Feed.unitsOfItems_spliced (vs : List Value) :
    Feed.unitsOfItems (vs.map .spliced) = .ok (vs.map Value.quotedIfNeeded) := by
  induction vs with
  | nil => rfl
  | cons v vs ih =>
    rw [List.map_cons, Feed.unitsOfItems, ih]
    rfl

namespace Evaluator

variable {vs : List Value} {m : Machine} {scope : ScopeId} {patience nesting : Nat}

theorem yields_opened (vs : List Value) (m : Machine) (scope : ScopeId) (patience nesting : Nat) :
    ∃ k frame m', Yields ⟨stepWithin patience (nesting + 1), patience⟩ m.freshFrame
        (m.opened (vs.map Value.quotedIfNeeded) scope) (vs.take k) (m.nextStop vs.length) frame m' ∧
      (m.nextStop vs.length = none → vs.take k = vs) := by
  have hclock : m.SameClock (m.opened (vs.map Value.quotedIfNeeded) scope) :=
    ⟨rfl, rfl, rfl, rfl, rfl⟩
  rw [← Machine.nextStop_congr hclock]
  have hstep : stepWithin patience (nesting + 1) =
      evalStep ⟨stepWithin patience nesting, patience⟩ := rfl
  exact yields_quoted hstep (m.opened_units _ scope)

/-- What stands behind the values does not matter if a stop cuts them short. -/
theorem stoppedBy_congr {α : Type} {stop : Option Signal} {a b : α} (h : stop = none → a = b) :
    stoppedBy stop a = stoppedBy stop b := by
  cases stop with
  | none => rw [h rfl]
  | some s => rfl

/-- All that running and reducing a feed of units that stand for values comes to. -/
theorem runs_quoted (vs : List Value) (room : m.depth < m.config.maxDepth) (scope : ScopeId)
    (patience nesting : Nat) :
    ∃ k frame m',
      let ev : Evaluator := ⟨stepWithin patience (nesting + 1), patience⟩
      let code := vs.map Value.quotedIfNeeded
      let stop := m.nextStop vs.length
      ev.Yields m.freshFrame (m.opened code scope) (vs.take k) stop frame m' ∧
      (stop = none → vs.take k = vs ∧ m'.tick = m.tick + vs.length) ∧ m'.scopes = m.scopes ∧
      ev.runUnits code scope m = (stoppedBy stop vs.getLast?, m'.leave m.nextFrame) ∧
      ev.reduceUnits code scope m =
        (stoppedBy stop (vs.filter fun v => !v.isNull), m'.leave m.nextFrame) := by
  obtain ⟨k, frame, m', h, hall⟩ := yields_opened vs m scope patience nesting
  refine ⟨k, frame, m', h, fun hstop => ⟨hall hstop, ?_⟩, h.scopes_eq, ?_, ?_⟩
  · rw [hstop] at h
    rw [h.tick_eq, hall hstop]
    rfl
  · rw [h.runUnits room]
    exact congrArg (·, _) (stoppedBy_congr fun hstop => by rw [hall hstop])
  · rw [h.reduceUnits room]
    exact congrArg (·, _) (stoppedBy_congr fun hstop => by rw [hall hstop])

theorem reduce_quoted {c : Call} (room : m.depth < m.config.maxDepth)
    (hblock : c.slot 0 = .block (vs.map Value.quotedIfNeeded)) (patience nesting : Nat) :
    ∃ m', Access.run .reduce ⟨stepWithin patience (nesting + 1), patience⟩ c m =
        (stoppedBy (m.nextStop vs.length) (.out (.block (vs.filter fun v => !v.isNull))), m') ∧
      m'.scopes = m.scopes := by
  obtain ⟨k, frame, m', -, -, hscopes, -, hreduce⟩ :=
    runs_quoted vs room (m.feed c.frame.feed).scope patience nesting
  have hitems : c.block 0 m = (.done (vs.map Value.quotedIfNeeded), m) := by
    unfold Call.block
    rw [hblock]
    rfl
  have hscope : c.scope m = (.done (m.feed c.frame.feed).scope, m) := rfl
  refine ⟨m'.leave m.nextFrame, ?_, hscopes⟩
  unfold Access.run
  rw [Eval.run_bind_of_done hitems, Eval.run_bind_of_done hscope, Eval.run_bind, hreduce]
  cases m.nextStop vs.length <;> rfl

end Evaluator

open Evaluator in
/-- What a host gets for values that it hands over as finished. -/
theorem Session.evalItems_spliced (s : Session) (vs : List Value)
    (room : s.machine.depth < s.machine.config.maxDepth) :
    (s.evalItems (vs.map .spliced)).1 =
      (match s.machine.nextStop vs.length with
        | none => .ok (vs.getLast?.getD .void)
        | some signal => .error (.signal signal)) ∧
    (s.evalItems (vs.map .spliced)).2.machine.scopes = s.machine.scopes := by
  obtain ⟨k, frame, m', -, -, hscopes, hrun, -⟩ := runs_quoted vs room s.user defaultPatience
    s.machine.config.maxDepth
  rw [s.evalItems_of_units (Feed.unitsOfItems_spliced vs)]
  obtain ⟨journal, hmachine⟩ := s.evalUnits_machine (vs.map Value.quotedIfNeeded)
  have hrun : s.evaluator.runUnits (vs.map Value.quotedIfNeeded) s.user s.machine = _ := hrun
  constructor
  · simp only [evalUnits, Session.run_eq, hrun]
    cases s.machine.nextStop vs.length <;> rfl
  · rw [hmachine, hrun]
    exact hscopes

open Evaluator in
/-- Units that stand for the values `vs` evaluate to them: on every machine with room for a frame, one
step comes to each value, and running, reducing or handing over the units comes to what the values
say, with no binding changed.  Only a stop that one of the checkpoints takes up ends this early, which
takes a request or a hook that asks for one. -/
theorem quoting_inverts (vs : List Value) (s : Session)
    (room : s.machine.depth < s.machine.config.maxDepth) :
    let m := s.machine
    let code := vs.map Value.quotedIfNeeded
    let stop := m.nextStop vs.length
    let kept := vs.filter fun v => !v.isNull
    (∀ scope patience nesting, ∃ k frame m',
      let ev : Evaluator := ⟨stepWithin patience (nesting + 1), patience⟩
      ev.Yields m.freshFrame (m.opened code scope) (vs.take k) stop frame m' ∧
      (stop = none → vs.take k = vs ∧ m'.tick = m.tick + vs.length) ∧ m'.scopes = m.scopes ∧
      ev.runUnits code scope m = (stoppedBy stop vs.getLast?, m'.leave m.nextFrame) ∧
      ev.reduceUnits code scope m = (stoppedBy stop kept, m'.leave m.nextFrame)) ∧
    (∀ (c : Call) (patience nesting : Nat), c.slot 0 = .block code → ∃ m',
      Access.run .reduce ⟨stepWithin patience (nesting + 1), patience⟩ c m =
        (stoppedBy stop (.out (.block kept)), m') ∧ m'.scopes = m.scopes) ∧
    (s.evalItems (vs.map .spliced)).1 =
      (match stop with
        | none => .ok (vs.getLast?.getD .void)
        | some signal => .error (.signal signal)) ∧
    (s.evalItems (vs.map .spliced)).2.machine.scopes = m.scopes ∧
    (m.interrupt = false → (∀ ask, m.hook = some ask → ∀ tick, ask tick = false) → stop = none) := by
  intro m code stop kept
  obtain ⟨hresult, hscopes⟩ := s.evalItems_spliced vs room
  refine ⟨runs_quoted vs room, ?_, hresult, hscopes, ?_⟩
  · intro c patience nesting hblock
    exact reduce_quoted room hblock patience nesting
  · intro hinterrupt hhook
    exact Machine.nextStop_undisturbed hinterrupt hhook vs.length

/-- Values that code does not leave alone: an operator that quotes what stands before it, its name,
a barrier, placeholders. -/
def unruly : List Value :=
  [.integer 1, .word "also", .comma, .null, .void, .quoted (.word "also"), .setWord "also",
    .action 0 { (default : Action) with enfixed := true }, .path [.word "also"]]

/-- A session in which `also` is an operator that quotes its left operand. -/
def quotingSession : Session where
  machine :=
    let left : Param := { name := "left", role := .hardQuote }
    let also : Action := { (default : Action) with params := [left], enfixed := true }
    let scopes : Scopes := (({} : Scopes).make none).make (some 0)
    { Machine.new {} with scopes := scopes.define 0 "also" (.action 0 also) }
  lib := 0
  user := 1

theorem quoting_inverts_unruly :
    quotingSession.machine.depth < quotingSession.machine.config.maxDepth ∧
    (quotingSession.evalItems (unruly.map .spliced)).1 = .ok (.path [.word "also"]) ∧
    (quotingSession.evalItems (unruly.map .spliced)).2.machine.scopes =
      quotingSession.machine.scopes := by
  have room : quotingSession.machine.depth < quotingSession.machine.config.maxDepth := by decide
  obtain ⟨-, -, hresult, hscopes, hquiet⟩ := quoting_inverts unruly quotingSession room
  have hstop := hquiet rfl (by rintro ask ⟨⟩)
  rw [hstop] at hresult
  exact ⟨room, hresult, hscopes⟩

/-- A session that looks for a stop at every step, with one requested of it. -/
def haltingSession : Session where
  machine := { Machine.new { pollInterval := 1 } with
    interrupt := true
    scopes := (({} : Scopes).make none).make (some 0) }
  lib := 0
  user := 1

theorem quoting_halted :
    haltingSession.machine.depth < haltingSession.machine.config.maxDepth ∧
    (haltingSession.evalItems [.spliced (.integer 1)]).1 = .error (.signal .halt) ∧
    (haltingSession.evalItems [.spliced (.integer 1)]).1 ≠ .ok (.integer 1) := by
  have room : haltingSession.machine.depth < haltingSession.machine.config.maxDepth := by decide
  obtain ⟨hresult, -⟩ := haltingSession.evalItems_spliced [.integer 1] room
  have hhalts : (haltingSession.evalItems [.spliced (.integer 1)]).1 = .error (.signal .halt) :=
    hresult
  refine ⟨room, hhalts, ?_⟩
  rw [hhalts]
  exact nofun

end Homoicon
