import Homoicon.Proofs.Checkpoints
import Homoicon.Proofs.Draining
import Homoicon.Proofs.States

/-!
# What steps and takes consume

Whatever runs, the units of a feed are only ever consumed from the front.  The driver of a step pays
for its states with units: behind the first unit it comes to two more states for every further one,
so it goes through at most `2 * k + 4` of them while `k` units are consumed.  A step that is over
and a value that is taken from a varargs have cost one unit at least, so no varargs can be taken
from for ever.
-/

namespace Homoicon

/-! ### What the states of a step cost -/

/-- The states noted in a run, and two more for every unit that it leaves to a feed. -/
def Eval.outlay {α : Type} (x : Eval α) (feed : FeedId) (m : Machine) : Nat :=
  (x.states m).length + 2 * (x m).2.units feed

section

variable {α β : Type} {x : Eval α} {f : α → Eval β} {feed : FeedId} {m m' : Machine}

theorem Eval.Stepless.outlay (hx : x.Stepless) (feed : FeedId) (m : Machine) :
    x.outlay feed m = 2 * (x m).2.units feed := by
  rw [Eval.outlay, hx m, List.length_nil, Nat.zero_add]

theorem Eval.Stepless.outlay_bind {a : α} (hx : x.Stepless) (h : x m = (.done a, m')) :
    (x >>= f).outlay feed m = (f a).outlay feed m' := by
  rw [Eval.outlay, Eval.states_bind, hx m, h, Eval.run_bind_of_done h, List.nil_append]
  rfl

theorem Eval.Stepless.outlay_bind_ended (hx : x.Stepless) (h : ∀ a m', x m ≠ (.done a, m')) :
    (x >>= f).outlay feed m = 2 * (x m).2.units feed := by
  rw [Eval.outlay, Eval.states_bind, hx m, Eval.run_bind]
  rcases hrun : x m with ⟨a | _ | _ | _, m'⟩
  · exact absurd hrun (h a m')
  all_goals exact Nat.zero_add _

theorem Eval.Stepless.catchSignal (hx : x.Stepless) : x.catchSignal.Stepless := fun m =>
  (x.states_catchSignal m).trans (hx m)

end

theorem StepState.need_of_ne {s : StepState} (h : s ≠ .finished) (units : Nat) :
    2 * units + 2 ≤ s.need units := by
  cases s with
  | finished => exact absurd rfl h
  | _ => simp only [need]; omega

theorem StepState.leaves_le (s : StepState) (units : Nat) : s.leaves units ≤ units := by
  cases s <;> simp only [leaves] <;> omega

theorem Machine.units_pos_of_not_isEnd {m : Machine} {feed : FeedId}
    (h : (m.feed feed).isEnd = false) : 0 < m.units feed := by
  rw [Feed.isEnd, List.isEmpty_eq_false_iff] at h
  exact List.length_pos_iff.2 h

theorem Eval.moment_feeds {α : Type} (x : Eval α) {m : Machine} {before after : List Moment}
    {k : Moment} (h : x.trace m = before ++ k :: after) :
    m.FeedsShrink k.before ∧ k.before.FeedsShrink k.after ∧ k.after.FeedsShrink (x m).2 := by
  have hconnected := x.trace_connected m
  rw [h] at hconnected
  have hbefore : m.FeedsShrink k.before := (x.trace_feeds m).1 k (by simp [h])
  have hafter := hconnected.behind.invariant (P := fun n => k.after.FeedsShrink n)
    (fun j _ hj => hj.trans j.feeds) (.refl k.after)
  exact ⟨hbefore, k.feeds, hafter.2⟩

namespace Evaluator

variable {ev : Evaluator} {frame : Frame} {state : StepState} {feed : FeedId} {m m' : Machine}

theorem outlay_noteState {α : Type} {name : String} {f : Unit → Eval α} {journal : Array Event}
    (h : noteState frame name m = (.done (), { m with journal })) :
    (noteState frame name >>= f).outlay feed m = (f ()).outlay feed { m with journal } + 1 := by
  have hstates : (noteState frame name).states m = [name] := by
    unfold Eval.states noteState
    simp [Moment.state?]
  rw [Eval.outlay, Eval.states_bind, hstates, h, Eval.run_bind_of_done h, List.length_append]
  dsimp only [Eval.outlay, List.length_singleton]
  omega

theorem transition_done_or_placed (hfed : state.Fed m frame.feed) :
    (∃ r m', ev.transition frame state m = (.done r, m')) ∨ frame.feed < m.feeds.size := by
  cases state with
  | start =>
    left
    have hpeek : Eval.peek frame.feed m = (.done (m.feed frame.feed).peek, m) := rfl
    unfold transition startStep
    rw [Eval.bind_assoc, Eval.run_bind_of_done hpeek]
    cases (m.feed frame.feed).peek with
    | none => exact ⟨_, _, rfl⟩
    | some unit => cases unit <;> exact ⟨_, _, rfl⟩
  | lookbackQuote unit => exact .inr (Machine.lt_size_of_units hfed)
  | dispatch unit => exact .inr (Machine.lt_size_of_units hfed)
  | processAction p => exact .inr hfed
  | postSwitch => exact .inr hfed
  | finished => exact .inl ⟨_, _, rfl⟩

theorem outlay_finished (fuel : Nat) :
    (ev.drive fuel frame .finished).outlay feed m ≤ 2 * m.units feed + 1 := by
  cases fuel with
  | zero =>
    have houtlay : (ev.drive 0 frame .finished).outlay feed m = 2 * m.units feed := Nat.zero_add _
    omega
  | succ fuel =>
    obtain ⟨journal, hnote⟩ := noteState_run frame StepState.finished.name m
    rw [drive_finished, outlay_noteState hnote, (Eval.Stepless.pure _).outlay]
    exact Nat.le_refl _

theorem outlay_thrown (fuel : Nat) (s : Signal) :
    (ev.driveOn fuel frame (.error s)).outlay feed m = 2 * m.units feed + 1 := by
  obtain ⟨journal, hnote⟩ := noteState_run frame "thrown" m
  show (noteState frame "thrown" >>= fun _ => pure _).outlay feed m = _
  rw [outlay_noteState hnote, (Eval.Stepless.pure _).outlay]
  rfl

/-- A transition that is not the last leaves to the states after it no more than they need. -/
theorem round_outlay {fuel : Nat} (hfed : state.Fed m frame.feed) (hne : state ≠ .finished)
    (hdrive : ∀ {frame : Frame} {state : StepState} {m : Machine}, state.Fed m frame.feed →
      state ≠ .finished →
        (ev.drive fuel frame state).outlay frame.feed m ≤ state.need (m.units frame.feed)) :
    (ev.round fuel frame (ev.transition frame state)).outlay frame.feed m + 1 ≤
      state.need (m.units frame.feed) := by
  have hneed := StepState.need_of_ne hne (m.units frame.feed)
  have hstepless : (ev.transition frame state).catchSignal.Stepless :=
    (transition_stepless state).catchSignal
  have hcatch := (ev.transition frame state).run_catchSignal m
  -- Only a start may be without a feed yet, which nested code could then add with units in it.  But
  -- a start runs no code and always comes to a next state.
  have hleft : (∀ r m', ev.transition frame state m ≠ (.done r, m')) →
      (ev.transition frame state m).2.units frame.feed ≤ m.units frame.feed := by
    intro hnot
    have hplaced : frame.feed < m.feeds.size :=
      (transition_done_or_placed hfed).resolve_left fun ⟨r, m', h⟩ => hnot r m' h
    exact ((ev.transition frame state).run_feeds m).units_le _ hplaced
  unfold round
  rcases hrun : ev.transition frame state m with ⟨⟨frame', state'⟩ | s | e | _, m'⟩ <;>
    rw [hrun] at hcatch hleft
  · obtain ⟨hfeed, hfollows⟩ := transition_follows hfed hne hrun
    rw [hstepless.outlay_bind hcatch]
    show (ev.drive fuel frame' state').outlay frame.feed m' + 1 ≤ _
    by_cases hfin : state' = .finished
    · subst hfin
      have houtlay : (ev.drive fuel frame' .finished).outlay frame.feed m' ≤
          2 * m'.units frame.feed + 1 := outlay_finished fuel
      have hless : m'.units frame.feed ≤ m.units frame.feed :=
        Nat.le_trans hfollows.leaves_le (state.leaves_le _)
      omega
    · have houtlay := hdrive (hfeed ▸ hfollows.fed) hfin
      have hless := hfollows.need_lt
      rw [hfeed] at houtlay
      omega
  · have hless : m'.units frame.feed ≤ m.units frame.feed := hleft (by simp)
    rw [hstepless.outlay_bind hcatch]
    show (ev.driveOn fuel frame (.error s)).outlay frame.feed m' + 1 ≤ _
    rw [outlay_thrown]
    omega
  all_goals
    have hless : m'.units frame.feed ≤ m.units frame.feed := hleft (by simp)
    rw [hstepless.outlay_bind_ended (by simp [hcatch, Outcome.seeSignal]), hcatch]
    show 2 * m'.units frame.feed + 1 ≤ _
    omega

/-- From some state that is not the last, a step goes through no more states than are needed there,
less two for every unit that is left in the end. -/
theorem drive_outlay {fuel : Nat} (hfed : state.Fed m frame.feed) (hne : state ≠ .finished) :
    (ev.drive fuel frame state).outlay frame.feed m ≤ state.need (m.units frame.feed) := by
  induction fuel generalizing frame state m with
  | zero =>
    have hneed := StepState.need_of_ne hne (m.units frame.feed)
    have houtlay : (ev.drive 0 frame state).outlay frame.feed m = 2 * m.units frame.feed :=
      Nat.zero_add _
    omega
  | succ fuel ih =>
    obtain ⟨journal, hnote⟩ := noteState_run frame state.name m
    have hnoted : state.Fed { m with journal } frame.feed := by cases state <;> exact hfed
    rw [drive_of_ne hne, outlay_noteState hnote]
    exact round_outlay hnoted hne fun h h' => ih h h'

theorem evalStep_outlay (ev : Evaluator) (frame : Frame) (m : Machine) :
    (ev.evalStep frame).outlay frame.feed m ≤ 2 * m.units frame.feed + 4 := by
  have htake : (Eval.takeNoLookahead frame.feed).Stepless :=
    .bind (.command fun _ _ => rfl) fun _ => .bind (.command fun _ _ => rfl) fun _ => .pure _
  have hpoll : Eval.poll.Stepless := .command fun _ _ => rfl
  have hleft : (Eval.unitsLeft frame.feed).Stepless := .command fun _ _ => rfl
  obtain ⟨b, m₁, h₁⟩ : ∃ b m₁, Eval.takeNoLookahead frame.feed m = (.done b, m₁) := ⟨_, _, rfl⟩
  obtain ⟨s?, m₂, h₂⟩ : ∃ s? m₂, Eval.poll m₁ = (.done s?, m₂) := ⟨_, _, rfl⟩
  have hunits : m₂.units frame.feed = m.units frame.feed :=
    (units_poll h₂ _).trans (units_takeNoLookahead h₁ _)
  unfold evalStep
  rw [htake.outlay_bind h₁, hpoll.outlay_bind h₂, ← hunits]
  cases s? with
  | some s =>
    rw [(Eval.Stepless.pure _).outlay]
    exact Nat.le_add_right _ _
  | none =>
    have h₃ : Eval.unitsLeft frame.feed m₂ = (.done (m₂.units frame.feed), m₂) := rfl
    dsimp only
    rw [hleft.outlay_bind h₃]
    exact drive_outlay (by trivial) (by simp)

theorem evalStep_states (ev : Evaluator) (frame : Frame) (m : Machine) :
    ((ev.evalStep frame).states m).length ≤
      2 * (m.units frame.feed - (ev.evalStep frame m).2.units frame.feed) + 4 := by
  have houtlay := ev.evalStep_outlay frame m
  rw [Eval.outlay] at houtlay
  omega

theorem drive_enough {fuel : Nat} (h : Supplied fuel frame state m) (extra : Nat) :
    ev.drive (fuel + extra) frame state m = ev.drive fuel frame state m := by
  induction fuel generalizing frame state m with
  | zero => exact absurd h.pos (Nat.lt_irrefl 0)
  | succ fuel ih =>
    rw [Nat.add_right_comm]
    by_cases hfin : state = .finished
    · subst hfin
      rfl
    · obtain ⟨journal, hnote⟩ := noteState_run frame state.name m
      have hnoted := h.journal journal
      have hcatch := (ev.transition frame state).run_catchSignal { m with journal }
      rw [drive_of_ne hfin, drive_of_ne hfin, Eval.run_bind_of_done hnote,
        Eval.run_bind_of_done hnote, Eval.run_bind, Eval.run_bind, hcatch]
      rcases hrun : ev.transition frame state { m with journal } with
        ⟨⟨frame', state'⟩ | s | e | _, m'⟩
      · exact ih (hnoted.next hfin hrun)
      all_goals rfl

/-! ### What takes cost -/

theorem stepToVisible_progress (hprogress : ev.Progresses) {suppressed : Bool} {fuel : Nat}
    {stepped : Stepped} (h : ev.stepToVisible suppressed fuel frame m = (.done stepped, m'))
    (hdone : stepped.signal = none) : m'.units frame.feed ≤ m.units frame.feed - 1 := by
  induction fuel generalizing frame m with
  | zero => cases h
  | succ fuel ih =>
    rw [stepToVisible_succ] at h
    obtain ⟨_, m₁, h₁, h⟩ := Eval.run_bind_eq_done.1 h
    obtain ⟨first, m₂, h₂, h⟩ := Eval.run_bind_eq_done.1 h
    obtain ⟨hfeed, hunits⟩ := hprogress frame m₁ first m₂ h₂
    rw [Guard.units_setNoLookahead h₁] at hunits
    unfold afterStep at h
    split at h
    · rename_i s hs
      cases h
      rw [hs] at hdone
      cases hdone
    · rename_i hnone
      obtain ⟨ended, m₃, h₃, hrest⟩ := Eval.run_bind_eq_done.1 h
      obtain ⟨rfl, -⟩ := Guard.units_of_atArgumentEnd h₃
      split at hrest
      · cases hrest
        exact hunits hnone
      · have hrest := ih hrest
        have hfirst := hunits hnone
        rw [hfeed] at hrest
        omega

theorem withFrame_eq_done {α : Type} {label : Option String} {body : Frame → Eval α} {a : α}
    (h : withFrame feed label body m = (.done a, m')) :
    ∃ m₁, body { id := m.nextFrame, feed } (m.enter label) = (.done a, m₁) ∧
      m' = m₁.leave m.nextFrame := by
  unfold withFrame at h
  by_cases hroom : m.config.maxDepth ≤ m.depth
  · rw [Eval.run_inFrame_refused hroom] at h
    cases h
  · rw [Eval.run_inFrame hroom] at h
    rcases hbody : body { id := m.nextFrame, feed } (m.enter label) with ⟨a' | _ | _ | _, m₁⟩ <;>
      rw [hbody] at h <;> cases h
    exact ⟨m₁, rfl, rfl⟩

theorem evalExpression_progress (hprogress : ev.Progresses) {fulfilling : Bool} {v? : Option Value}
    (h : ev.evalExpression feed fulfilling m = (.done v?, m')) :
    m'.units feed ≤ m.units feed - 1 := by
  obtain ⟨m₁, hbody, rfl⟩ := withFrame_eq_done h
  obtain ⟨stepped, m₂, hvisible, hout⟩ := Eval.run_bind_eq_done.1 hbody
  obtain ⟨_, m₃, htake, hvisible⟩ := Eval.run_bind_eq_done.1 hvisible
  obtain ⟨_, m₄, hleft, hvisible⟩ := Eval.run_bind_eq_done.1 hvisible
  cases hleft
  have htaken := units_takeNoLookahead htake feed
  have hprogressed := stepToVisible_progress hprogress hvisible
  unfold Stepped.frameOrThrow at hout
  split at hout
  · cases hout
  · rename_i hdone
    cases hout
    have hless := hprogressed hdone
    show m₁.units feed ≤ (m.enter none).units feed - 1
    rw [← htaken]
    exact hless

theorem pullValue_consumes (hprogress : ev.Progresses) {va : Varargs} {v? : Option Value}
    (hpos : 0 < m.units va.feed) (h : ev.pullValue va m = (.done v?, m')) :
    m'.units va.feed < m.units va.feed := by
  unfold pullValue at h
  split at h
  · have hless := evalExpression_progress hprogress h
    omega
  · obtain ⟨unit?, m₁, hpeek, h⟩ := Eval.run_bind_eq_done.1 h
    cases hpeek
    obtain ⟨_, m₂, hadvance, h⟩ := Eval.run_bind_eq_done.1 h
    cases hadvance
    exact (consumed hpos (.of_run h)).2
  · obtain ⟨unit?, m₁, hpeek, h⟩ := Eval.run_bind_eq_done.1 h
    have hsome : unit? ≠ none := by
      cases hpeek
      exact fun hnone => Nat.ne_of_gt hpos (Machine.units_eq_zero_iff.2 hnone)
    cases hpeek
    split at h
    · exact absurd ‹_› hsome
    · obtain ⟨_, m₂, hadvance, h⟩ := Eval.run_bind_eq_done.1 h
      cases hadvance
      exact (consumed hpos (.of_run h)).2

theorem takeFrom_consumes (hprogress : ev.Progresses) {va : Varargs} {v : Value}
    (hmore : va.isTail m = (.done false, m)) (h : ev.takeFrom va m = (.done v, m')) :
    m'.units va.feed < m.units va.feed := by
  have hopen : (m.feed va.feed).atArgumentEnd = false := by
    rw [Varargs.isTail_run] at hmore
    exact Outcome.done.inj (Prod.mk.inj hmore).1
  have hpos : 0 < m.units va.feed :=
    Machine.units_pos_of_not_isEnd (Bool.or_eq_false_iff.1 hopen).1
  unfold takeFrom at h
  rw [Eval.run_bind_of_done hmore, if_neg Bool.false_ne_true] at h
  obtain ⟨v?, m₁, hpull, h⟩ := Eval.run_bind_eq_done.1 h
  have hless := pullValue_consumes hprogress hpos hpull
  dsimp only at h
  split at h
  · cases h
  · cases h
    exact hless

/-- Values taken from a varargs, each while it is not at its tail.  Anything may run in between. -/
inductive Takes (ev : Evaluator) (va : Varargs) : Machine → List Value → Machine → Prop
  | nil (m : Machine) : Takes ev va m [] m
  | between {α : Type} {m m' : Machine} {vs : List Value} (x : Eval α)
    (rest : Takes ev va (x m).2 vs m') : Takes ev va m vs m'
  | take {m m₁ m' : Machine} {v : Value} {vs : List Value}
    (more : va.isTail m = (.done false, m)) (taken : ev.takeFrom va m = (.done v, m₁))
    (rest : Takes ev va m₁ vs m') : Takes ev va m (v :: vs) m'

theorem Takes.length_le (hprogress : ev.Progresses) {va : Varargs} {vs : List Value}
    (h : ev.Takes va m vs m') (hfeed : va.feed < m.feeds.size) :
    vs.length + m'.units va.feed ≤ m.units va.feed := by
  induction h with
  | nil m => exact Nat.le_of_eq (Nat.zero_add _)
  | @between _ m _ _ x _ ih =>
    have hshrink := x.run_feeds m
    exact Nat.le_trans (ih (Nat.lt_of_lt_of_le hfeed hshrink.size_le)) (hshrink.units_le _ hfeed)
  | @take m m₁ m' v vs more taken rest ih =>
    have hshrink : Machine.FeedsShrink m m₁ := .of_run taken
    have hless := takeFrom_consumes hprogress more taken
    have hrest := ih (Nat.lt_of_lt_of_le hfeed hshrink.size_le)
    rw [List.length_cons]
    omega

/-- Draining a varargs comes to the tail, or to a take that gives no value, in at most so many
rounds as there are units, and one more to see the tail. -/
theorem drain_enough (hprogress : ev.Progresses) {va : Varargs} {rounds : Nat}
    (h : m.units va.feed < rounds) (extra : Nat) :
    ev.drain va (rounds + extra) m = ev.drain va rounds m := by
  induction rounds generalizing m with
  | zero => exact absurd h (Nat.not_lt_zero _)
  | succ rounds ih =>
    rw [Nat.add_right_comm]
    have htail := va.isTail_run m
    unfold drain
    rw [Eval.run_bind_of_done htail, Eval.run_bind_of_done htail]
    cases hend : (m.feed va.feed).atArgumentEnd with
    | true => rfl
    | false =>
      rw [hend] at htail
      rw [if_neg Bool.false_ne_true, if_neg Bool.false_ne_true, Eval.run_bind, Eval.run_bind]
      rcases htaken : ev.takeFrom va m with ⟨v | _ | _ | _, m₁⟩
      · have hless := takeFrom_consumes hprogress htail htaken
        dsimp only
        rw [Eval.run_bind, Eval.run_bind, ih (by omega)]
      all_goals rfl

/-! ### All of it together -/

/-- In no moment of any run does a feed get anything but shorter from the front.  A step that is
over, on a feed that was not at its end, has consumed a unit of it.  Whatever a step came to, it
went through at most `2 * k + 4` states for the `k` units that it consumed, and fuel for so many is
as good as more.  A value that is taken from a varargs before its tail has cost it a unit, so there are
no more to take than there are units, and a loop that takes them ends. -/
theorem feed_progress (patience nesting : Nat) :
    let ev : Evaluator := ⟨stepWithin patience nesting, patience⟩
    (∀ {α : Type} (x : Eval α) (m : Machine) (before after : List Moment) (k : Moment),
      x.trace m = before ++ k :: after →
        m.FeedsShrink k.before ∧ k.before.FeedsShrink k.after ∧ k.after.FeedsShrink (x m).2) ∧
    (∀ (frame : Frame) (m m' : Machine) (stepped : Stepped),
      ev.step frame m = (.done stepped, m') → stepped.signal = none →
        (m.feed frame.feed).isEnd = false → m'.units frame.feed < m.units frame.feed) ∧
    (∀ (frame : Frame) (m : Machine), ((ev.step frame).states m).length ≤
      2 * (m.units frame.feed - (ev.step frame m).2.units frame.feed) + 4) ∧
    (∀ (frame : Frame) (m : Machine) (extra : Nat),
      ev.drive (2 * m.units frame.feed + 4 + extra) frame .start m =
        ev.drive (2 * m.units frame.feed + 4) frame .start m) ∧
    (∀ (va : Varargs) (m m' : Machine) (v : Value), va.isTail m = (.done false, m) →
      ev.takeFrom va m = (.done v, m') → m'.units va.feed < m.units va.feed) ∧
    (∀ (va : Varargs) (m m' : Machine) (vs : List Value), ev.Takes va m vs m' →
      va.feed < m.feeds.size → vs.length + m'.units va.feed ≤ m.units va.feed) ∧
    ∀ (va : Varargs) (m : Machine) (extra : Nat),
      ev.drain va (m.units va.feed + 1 + extra) m = ev.drain va (m.units va.feed + 1) m := by
  intro ev
  have hprogress : ev.Progresses := stepWithin_progresses patience nesting
  refine ⟨fun x m _ _ _ ht => x.moment_feeds ht,
    fun frame m m' stepped h hdone hmore => ?_, fun frame m => ?_, fun frame m extra => ?_,
    fun va m m' v => takeFrom_consumes hprogress, fun va m m' vs h => h.length_le hprogress,
    fun va m => drain_enough hprogress (Nat.lt_succ_self _)⟩
  · have hless := (hprogress frame m stepped m' h).2 hdone
    have hpos : 0 < m.units frame.feed := Machine.units_pos_of_not_isEnd hmore
    omega
  · cases nesting with
    | zero => exact Nat.zero_le _
    | succ nesting => exact evalStep_states _ frame m
  · have hsupplied : Supplied (2 * m.units frame.feed + 4) frame .start m :=
      ⟨trivial, Nat.le_refl _⟩
    exact drive_enough hsupplied extra

/-- Over the block `[5 null]` the first step and the first take consume one of its two units each,
and the step goes through five states. -/
theorem feed_progress_nulling :
    let ev : Evaluator := ⟨stepWithin 1 3, 1⟩
    let m : Machine := nulling 0 [.integer 5, .null] none
    let frame : Frame := { id := 1, feed := 0 }
    (∃ k after, (ev.step frame).trace m = k :: after ∧ k.after.FeedsShrink (ev.step frame m).2) ∧
    (∃ stepped m', ev.step frame m = (.done stepped, m') ∧ stepped.signal = none ∧
      m'.units 0 < m.units 0) ∧
    (ev.step frame).states m = ["start", "lookback-quote", "dispatch", "post-switch", "finished"] ∧
    ((ev.step frame).states m).length ≤ 2 * (m.units 0 - (ev.step frame m).2.units 0) + 4 ∧
    ∃ v m', ev.takeFrom (.ofBlock 0) m = (.done v, m') ∧ m'.units 0 < m.units 0 ∧
      ev.Takes (.ofBlock 0) m [v] m' ∧ [v].length + m'.units 0 ≤ m.units 0 := by
  intro ev m frame
  obtain ⟨feeds, steps, states, -, takes, taken, -⟩ := feed_progress 1 3
  have hstates : (ev.step frame).states m =
      ["start", "lookback-quote", "dispatch", "post-switch", "finished"] := by decide +kernel
  have hmoments : (ev.step frame).trace m ≠ [] := by
    intro hnil
    rw [Eval.states, hnil] at hstates
    cases hstates
  obtain ⟨k, after, htrace⟩ := List.exists_cons_of_ne_nil hmoments
  obtain ⟨stepped, m₁, hstep, hdone⟩ : ∃ stepped m', ev.step frame m = (.done stepped, m') ∧
      stepped.signal = none := ⟨_, _, rfl, rfl⟩
  have hmore : (Varargs.ofBlock 0).isTail m = (.done false, m) := rfl
  have htaken : (ev.takeFrom (.ofBlock 0) m).1.result?.isSome = true := by decide +kernel
  obtain ⟨v, hv⟩ := Option.isSome_iff_exists.1 htaken
  obtain ⟨m₂, htake⟩ : ∃ m', ev.takeFrom (.ofBlock 0) m = (.done v, m') :=
    ⟨_, Eval.run_of_result? hv⟩
  have htakes : ev.Takes (.ofBlock 0) m [v] m₂ := .take hmore htake (.nil m₂)
  exact ⟨⟨k, after, htrace, (feeds _ m [] after k htrace).2.2⟩,
    ⟨stepped, m₁, hstep, hdone, steps frame m m₁ stepped hstep hdone rfl⟩, hstates,
    states frame m, v, m₂, htake, takes _ m m₂ v hmore htake, htakes,
    taken _ m m₂ [v] htakes Nat.zero_lt_one⟩

end Evaluator

end Homoicon
