import Homoicon.Proofs.Deferral

/-!
# Steps in which nothing waits

A frame that evaluates an argument leaves some of the operators behind a value to the call that the
argument is for.  A step that comes to no such operator goes the same way in a frame that evaluates
an argument as in one that does not.
-/

namespace Homoicon

/-- The operator that comes next could be taken on, but an argument leaves it to its call. -/
def Machine.HoldsUp (m : Machine) (frame : Frame) : Prop :=
  ∃ label a, m.operator? frame.feed = some (label, a) ∧ frame.noLookahead = false ∧
    (frame.out.stale = true → a.toleratesAbsentLeft = true) ∧
    mustDefer a.deferral (m.defers frame.feed) = true

theorem Machine.not_holdsUp {m : Machine} {frame : Frame}
    (h : ∀ name, (m.feed frame.feed).peek ≠ some (.word name)) : ¬m.HoldsUp frame := by
  rintro ⟨label, a, hoperator, -⟩
  unfold Machine.operator? at hoperator
  cases hpeek : (m.feed frame.feed).peek with
  | none =>
    rw [hpeek] at hoperator
    cases hoperator
  | some unit =>
    rw [hpeek] at hoperator
    cases unit with
    | word name => exact h name hpeek
    | _ => cases hoperator

namespace Evaluator

/-- From the given state a step goes to its end, and wherever it looks for an operator there is none
that an argument leaves to its call. -/
inductive Calm (ev : Evaluator) : Frame → StepState → Machine → Prop
  | finished {frame : Frame} {m : Machine} : Calm ev frame .finished m
  | next {frame frame' : Frame} {state state' : StepState} {m m' : Machine}
    (calm : state = .postSwitch → ¬m.HoldsUp frame)
    (goes : (noteState frame state.name >>= fun _ => ev.transition frame state) m =
      (.done (frame', state'), m'))
    (rest : Calm ev frame' state' m') : Calm ev frame state m

/-- The whole step that begins here is calm. -/
def CalmStep (ev : Evaluator) (frame : Frame) (m : Machine) : Prop :=
  ev.Calm
    { frame with
      out := frame.out.markStale
      noLookahead := (m.feed frame.feed).noLookahead }
    .start ((Eval.takeNoLookahead frame.feed >>= fun _ => Eval.poll) m).2

end Evaluator

/-- Frames with the same number and feed in the same place of a step.  They may differ in whether
they evaluate an argument, and in what a stale output has behind it. -/
structure Frame.Agrees (f f' : Frame) : Prop where
  id : f'.id = f.id
  feed : f'.feed = f.feed
  noLookahead : f'.noLookahead = f.noLookahead
  stale : f'.out.stale = f.out.stale
  value : f'.out.get? = f.out.get?

namespace Frame

variable {f f' : Frame}

theorem Agrees.set (h : f.Agrees f') (v : Value) :
    Agrees { f with out := f.out.set v } { f' with out := f'.out.set v } :=
  { h with stale := rfl, value := rfl }

theorem Agrees.markStale (h : f.Agrees f') :
    Agrees { f with out := f.out.markStale } { f' with out := f'.out.markStale } :=
  { h with stale := rfl, value := rfl }

theorem Agrees.taken (h : f.Agrees f') :
    Agrees { f with out := f.out.taken } { f' with out := f'.out.taken } := by
  unfold OutCell.taken
  rw [h.stale]
  split
  · exact h
  · exact { h with stale := rfl, value := rfl }

/-- The frame with what an evaluation of a unit left in a fresh frame. -/
def absorb (f : Frame) (r : Frame × StepState) : Frame × StepState :=
  ({ f with out := if r.1.out.stale then f.out else r.1.out }, r.2)

theorem absorb_produced (f : Frame) (feed : FeedId) (v : Option Value) :
    f.absorb (Evaluator.produced { id := 0, feed } v) = Evaluator.produced f v := by
  cases v <;> rfl

theorem Agrees.absorb (h : f.Agrees f') (r : Frame × StepState) :
    (f.absorb r).1.Agrees (f'.absorb r).1 := by
  unfold Frame.absorb
  dsimp only
  split
  · exact h
  · exact { h with stale := rfl, value := rfl }

end Frame

namespace Evaluator

variable {ev : Evaluator} {frame frame' : Frame} {state state' : StepState} {m m' : Machine}

/-- Of the frame, the evaluation of a unit looks at the feed only. -/
theorem dispatch_eq (ev : Evaluator) (frame : Frame) (unit : Value) :
    ev.dispatch frame unit =
      ev.dispatch { id := 0, feed := frame.feed } unit >>= fun r => pure (frame.absorb r) := by
  have after : ∀ {α : Type} (x : Eval α) (f g : α → Eval (Frame × StepState)),
      (∀ a, f a = g a >>= fun r => pure (frame.absorb r)) →
      x >>= f = x >>= g >>= fun r => pure (frame.absorb r) := by
    intro α x f g h
    rw [Eval.bind_assoc, funext h]
  have value : ∀ v, (pure (produced frame v) : Eval (Frame × StepState)) =
      pure (produced { id := 0, feed := frame.feed } v) >>= fun r => pure (frame.absorb r) :=
    fun v => congrArg Eval.done (frame.absorb_produced frame.feed v).symm
  have called : ∀ (x : Eval StepState),
      (x >>= fun state => pure (frame, state)) =
        (x >>= fun state => pure ({ id := 0, feed := frame.feed }, state)) >>=
          fun r => pure (frame.absorb r) :=
    fun x => after x _ _ fun state => rfl
  refine after _ _ _ fun _ => ?_
  cases unit with
  | word name =>
    refine after _ _ _ fun v => ?_
    cases v with
    | action _ a => exact called _
    | _ => exact value _
  | getWord | sym _ | getPath _ => exact after _ _ _ fun _ => value _
  | setWord _ => exact after _ _ _ fun _ => after _ _ _ fun _ => after _ _ _ fun _ => value _
  | group _ | setPath _ => exact after _ _ _ fun _ => after _ _ _ fun _ => value _
  | path items =>
    refine after _ _ _ fun r => ?_
    cases r with
    | call p => rfl
    | value v => exact value _
  | action _ a => rfl
  | comma => rfl
  | _ => exact value _

theorem postSwitch_agrees (h : frame.Agrees frame') (calm : ¬m.HoldsUp frame) {f : Frame}
    (goes : postSwitch frame m = (.done (f, state), m')) :
    ∃ f', postSwitch frame' m = (.done (f', state), m') ∧ f.Agrees f' := by
  have hpeek : Eval.peek frame.feed m = (.done (m.feed frame.feed).peek, m) := rfl
  unfold postSwitch at goes ⊢
  rw [h.feed, h.noLookahead, h.stale, h.value]
  rw [Eval.run_bind_of_done hpeek, Eval.run_bind_of_done (wordAction?_eq m frame.feed _)] at goes ⊢
  cases hfound : m.wordAction? frame.feed (m.feed frame.feed).peek with
  | none =>
    rw [hfound] at goes
    cases goes
    exact ⟨frame', rfl, h⟩
  | some found =>
    obtain ⟨label, action⟩ := found
    rw [hfound] at goes
    dsimp only at goes ⊢
    by_cases htakes : (!action.enfixed || action.quotesFirst) = true
    · rw [if_pos htakes] at goes ⊢
      cases goes
      exact ⟨frame', rfl, h⟩
    · have hoperator : m.operator? frame.feed = some (label, action) := by
        rw [Machine.operator?, hfound]
        simpa [Option.filter] using htakes
      rw [if_neg htakes] at goes ⊢
      by_cases hlook : frame.noLookahead = true
      · rw [if_pos hlook] at goes ⊢
        obtain ⟨_, m₁, hnote, goes⟩ := Eval.run_bind_eq_done.1 goes
        rw [Eval.run_bind_of_done hnote]
        cases goes
        exact ⟨_, rfl, { h with feed := rfl, noLookahead := rfl }⟩
      · rw [if_neg hlook] at goes ⊢
        by_cases hstale : (frame.out.stale && !action.toleratesAbsentLeft) = true
        · rw [if_pos hstale] at goes ⊢
          cases goes
          exact ⟨frame', rfl, h⟩
        · -- in either frame the operator is taken on, since it need not wait
          have hwaits : mustDefer action.deferral (m.defers frame.feed) = false := by
            refine Bool.eq_false_iff.2 fun hwaits => calm ⟨label, action, hoperator, ?_, ?_, hwaits⟩
            · exact Bool.eq_false_iff.2 hlook
            · simpa using hstale
          have hdefers : Eval.deferring frame.feed m = (.done (m.defers frame.feed), m) := rfl
          rw [if_neg hstale, Eval.run_bind_of_done hdefers, hwaits, Bool.and_false,
            if_neg Bool.false_ne_true] at goes ⊢
          obtain ⟨_, m₁, hset, goes⟩ := Eval.run_bind_eq_done.1 goes
          obtain ⟨_, m₂, hadvance, goes⟩ := Eval.run_bind_eq_done.1 goes
          rw [Eval.run_bind_of_done hset, Eval.run_bind_of_done hadvance]
          cases goes
          exact ⟨_, rfl, { h.taken with feed := rfl, noLookahead := rfl }⟩

theorem processAction_agrees {p : PendingCall} (h : frame.Agrees frame') {f : Frame}
    (goes : ev.processAction frame p m = (.done (f, state), m')) :
    ∃ f', ev.processAction frame' p m = (.done (f', state), m') ∧ f.Agrees f' := by
  unfold processAction at goes ⊢
  rw [h.feed]
  obtain ⟨v?, m₁, hinvoke, goes⟩ := Eval.run_bind_eq_done.1 goes
  rw [Eval.run_bind_of_done hinvoke]
  cases v? with
  | none =>
    cases goes
    exact ⟨_, rfl, { h.markStale with feed := rfl }⟩
  | some v =>
    cases goes
    exact ⟨_, rfl, { h.set v with feed := rfl }⟩

theorem transition_agrees (h : frame.Agrees frame')
    (calm : state = .postSwitch → ¬m.HoldsUp frame) {f : Frame}
    (goes : ev.transition frame state m = (.done (f, state'), m')) :
    ∃ f', ev.transition frame' state m = (.done (f', state'), m') ∧ f.Agrees f' := by
  cases state with
  | start =>
    obtain ⟨s, m₁, hstart, goes⟩ := Eval.run_bind_eq_done.1 goes
    cases goes
    have hstart' : startStep frame' m = (.done state', m') := by
      unfold startStep at hstart ⊢
      rwa [h.feed]
    exact ⟨frame', Eval.run_bind_of_done hstart', h⟩
  | lookbackQuote unit =>
    obtain ⟨s, m₁, hquote, goes⟩ := Eval.run_bind_eq_done.1 goes
    cases goes
    have hquote' : ev.lookbackQuote frame'.feed unit m = (.done state', m') := by rwa [h.feed]
    exact ⟨frame', Eval.run_bind_of_done hquote', h⟩
  | dispatch unit =>
    have goes : ev.dispatch frame unit m = (.done (f, state'), m') := goes
    rw [dispatch_eq] at goes
    obtain ⟨r, m₁, hfresh, goes⟩ := Eval.run_bind_eq_done.1 goes
    cases goes
    refine ⟨(frame'.absorb r).1, ?_, h.absorb r⟩
    show ev.dispatch frame' unit m = _
    rw [dispatch_eq, h.feed, Eval.run_bind_of_done hfresh]
    rfl
  | processAction p => exact processAction_agrees h goes
  | postSwitch => exact postSwitch_agrees h (calm rfl) goes
  | finished =>
    cases goes
    exact ⟨frame', rfl, h⟩

/-! ### Whole steps -/

theorem noteState_congr {name : String} (h : frame'.id = frame.id) :
    noteState frame' name = noteState frame name := by
  unfold noteState
  rw [h]

theorem Calm.drive (calm : ev.Calm frame state m) {fuel : Nat} {f : Frame}
    (h : frame.Agrees frame') (goes : ev.drive fuel frame state m = (.done { frame := f }, m')) :
    ∃ f', ev.drive fuel frame' state m = (.done { frame := f' }, m') ∧ f.Agrees f' := by
  -- the states are the same ones in both frames, so the fuel is spent alike
  induction calm generalizing frame' fuel with
  | finished =>
    cases fuel with
    | zero => cases goes
    | succ fuel =>
      rw [drive_finished] at goes ⊢
      obtain ⟨_, m₁, hnote, goes⟩ := Eval.run_bind_eq_done.1 goes
      rw [noteState_congr h.id, Eval.run_bind_of_done hnote]
      cases goes
      exact ⟨frame', rfl, h⟩
  | @next frame f₁ state state₁ m m₁ calm hgoes _ ih =>
    cases fuel with
    | zero => cases goes
    | succ fuel =>
      obtain ⟨journal, hnote⟩ := noteState_run frame state.name m
      have hnote' : noteState frame' state.name m = (.done (), { m with journal }) := by
        rwa [noteState_congr h.id]
      rw [Eval.run_bind_of_done hnote] at hgoes
      by_cases hfin : state = .finished
      · subst hfin
        rw [drive_finished] at goes ⊢
        rw [Eval.run_bind_of_done hnote] at goes
        rw [Eval.run_bind_of_done hnote']
        cases goes
        exact ⟨frame', rfl, h⟩
      · have calm : state = .postSwitch → ¬Machine.HoldsUp { m with journal } frame := calm
        obtain ⟨f₁', hgoes', h₁⟩ := transition_agrees h calm hgoes
        have caught : (ev.transition frame state).catchSignal { m with journal } =
            (.done (.ok (f₁, state₁)), m₁) := by
          rw [Eval.run_catchSignal, hgoes]
          rfl
        have caught' : (ev.transition frame' state).catchSignal { m with journal } =
            (.done (.ok (f₁', state₁)), m₁) := by
          rw [Eval.run_catchSignal, hgoes']
          rfl
        rw [drive_of_ne hfin, Eval.run_bind_of_done hnote, Eval.run_bind_of_done caught] at goes
        rw [drive_of_ne hfin, Eval.run_bind_of_done hnote', Eval.run_bind_of_done caught']
        exact ih h₁ goes

/-- A calm step goes the same way, with the same value, in a fresh frame that evaluates an
argument. -/
theorem CalmStep.evalStep (calm : ev.CalmStep frame m) {f : Frame}
    (goes : ev.evalStep frame m = (.done { frame := f }, m')) :
    ∃ f', ev.evalStep { id := frame.id, feed := frame.feed, fulfilling := true } m =
        (.done { frame := f' }, m') ∧ f.Agrees f' := by
  unfold Evaluator.evalStep at goes ⊢
  obtain ⟨b, m₁, htake, goes⟩ := Eval.run_bind_eq_done.1 goes
  obtain rfl : (m.feed frame.feed).noLookahead = b := Outcome.done.inj (Prod.mk.inj htake).1
  obtain ⟨s?, m₂, hpoll, goes⟩ := Eval.run_bind_eq_done.1 goes
  rw [Eval.run_bind_of_done htake, Eval.run_bind_of_done hpoll]
  cases s? with
  | some s => cases goes
  | none =>
    unfold CalmStep at calm
    rw [Eval.run_bind_of_done htake, hpoll] at calm
    obtain ⟨n, m₃, hleft, goes⟩ := Eval.run_bind_eq_done.1 goes
    cases hleft
    exact calm.drive ⟨rfl, rfl, rfl, rfl, rfl⟩ goes

end Evaluator

end Homoicon
