import Homoicon.Proofs.Stage

/-!
# Steps on a stage

What the states of a step do on a stage, as far as units that evaluate to themselves, words that call
actions and the lookahead for enfixed actions go.
-/

namespace Homoicon

/-- The feed as a step finds it that is kept from looking ahead, if it is. -/
def Feed.kept (f : Feed) (suppressed : Bool) : Feed :=
  { f with noLookahead := suppressed || f.noLookahead }

theorem Feed.advance_cons {f : Feed} {unit : Value} {rest : List Value}
    (h : f.units = unit :: rest) : f.advance = { f with units := rest, lookback := some unit } := by
  simp only [Feed.advance, h]

theorem Feed.peekNext_cons {f : Feed} {unit : Value} {rest : List Value}
    (h : f.units = unit :: rest) : f.peekNext = rest.head? := by
  rw [Feed.peekNext, h]
  cases rest <;> rfl

theorem Feed.atArgumentEnd_cons {f : Feed} {unit : Value} {rest : List Value}
    (h : f.units = unit :: rest) (hunit : unit ≠ .comma) : f.atArgumentEnd = false := by
  rw [Feed.atArgumentEnd, Feed.isEnd, Feed.atBarrier, h]
  cases unit <;> first | rfl | exact absurd rfl hunit

/-- What a step comes to outside of its frame: the value it produced, or the signal that ended it. -/
def Stepped.outcome (s : Stepped) : Outcome (Option Value) :=
  match s.signal with
  | some signal => .thrown signal
  | none => .done s.frame.out.get?

namespace Stage

variable {S : Stage} {depth : Nat} {f g : Feed} {ev : Evaluator} {frame : Frame}

/-- What comes next is no action that claims the unit before it as it stands. -/
structure Unclaiming (S : Stage) (unit? : Option Value) : Prop where
  known : S.Knows unit?
  evaluates : ∀ name a, S.action? unit? = some (name, a) → a.quotesFirst = false

/-- What comes next is no enfixed action. -/
structure Ending (S : Stage) (unit? : Option Value) : Prop where
  known : S.Knows unit?
  prefixed : ∀ name a, S.action? unit? = some (name, a) → a.enfixed = false

/-- An enfixed action comes next that takes an evaluated left operand. -/
structure Goes (S : Stage) (unit? : Option Value) (name : String) (a : Action) : Prop where
  known : S.Knows unit?
  action : S.action? unit? = some (name, a)
  enfixed : a.enfixed = true
  evaluates : a.quotesFirst = false

theorem Unclaiming.ending_or_goes {unit? : Option Value} (h : S.Unclaiming unit?) :
    S.Ending unit? ∨ ∃ name a, S.Goes unit? name a := by
  cases haction : S.action? unit? with
  | none =>
    left
    refine ⟨h.known, ?_⟩
    intro name a ha
    rw [haction] at ha
    cases ha
  | some entry =>
    obtain ⟨name, a⟩ := entry
    cases henfixed : a.enfixed with
    | false =>
      left
      refine ⟨h.known, ?_⟩
      intro name' a' ha
      rw [haction] at ha
      cases ha
      exact henfixed
    | true => exact .inr ⟨name, a, h.known, haction, henfixed, h.evaluates name a haction⟩

theorem Ending.unclaiming {unit? : Option Value} (h : S.Ending unit?) : S.Unclaiming unit? where
  known := h.known
  evaluates name a ha := by simp [Action.quotesFirst, h.prefixed name a ha]

theorem ending_none : S.Ending none where
  known := trivial
  prefixed name a h := by cases h

theorem Goes.unclaiming {unit? : Option Value} {name : String} {a : Action}
    (h : S.Goes unit? name a) : S.Unclaiming unit? where
  known := h.known
  evaluates name' a' ha := by
    rw [h.action] at ha
    cases ha
    exact h.evaluates

/-! ### Before a unit is evaluated -/

theorem Gives.lookbackQuote (unit : Value) (h : S.Unclaiming f.peekNext) :
    S.Gives depth f (ev.lookbackQuote S.feed unit) (.dispatch unit) f := by
  have hclaim : S.Gives depth f (leftClaim? S.feed unit) none f := by
    apply Gives.peekNext.andThen
    apply (Gives.wordAction? h.known).andThen
    cases haction : S.action? f.peekNext with
    | none => exact Gives.pure _
    | some entry =>
      obtain ⟨name, a⟩ := entry
      have hno : a.claims? unit = none := by
        unfold Action.claims?
        rw [h.evaluates name a haction]
        cases a.firstParam? <;> rfl
      simp only [hno]
      exact Gives.pure _
  exact hclaim.andThen (Gives.pure _)

theorem Gives.startStep {unit : Value} {rest : List Value} (hframe : frame.feed = S.feed)
    (hunits : f.units = unit :: rest) (hunit : unit ≠ .comma) :
    S.Gives depth f (Evaluator.startStep frame) (.lookbackQuote unit) f := by
  unfold Evaluator.startStep
  rw [hframe]
  apply Gives.peek.andThen
  rw [Feed.peek, hunits, List.head?_cons]
  cases unit with
  | comma => exact absurd rfl hunit
  | _ => exact Gives.pure _

/-! ### From state to state -/

theorem Runs.drive {fuel : Nat} {state : StepState}
    {Q : Outcome (Frame × StepState) → Feed → Nat → Prop}
    {R : Outcome Stepped → Feed → Nat → Prop} (hstate : state ≠ .finished)
    (ht : S.Runs depth f (ev.transition frame state) Q)
    (hthrown : ∀ s g n, Q (.thrown s) g n → R (.done { frame, signal := some s }) g n)
    (hfailed : ∀ e g n, Q (.failed e) g n → R (.failed e) g n)
    (hexhausted : ∀ g n, Q .exhausted g n → R .exhausted g n)
    (hdone : ∀ frame' state' g n, Q (.done (frame', state')) g n →
      S.Runs depth g (ev.drive fuel frame' state') fun o g' n' => R o g' (n + n')) :
    S.Runs depth f (ev.drive (fuel + 1) frame state) R := by
  rw [Evaluator.drive_of_ne hstate]
  apply (Gives.noteState frame state.name).andThen
  have hcaught : S.Runs depth f (ev.transition frame state).catchSignal
      fun o g n => ∃ o', o = o'.seeSignal ∧ Q o' g n :=
    ht.catchSignal fun o g n hq => ⟨o, rfl, hq⟩
  apply Runs.bind hcaught
  · constructor
    · rintro s g n ⟨o, ho, hq⟩
      cases o <;> cases ho
    · rintro e g n ⟨o, ho, hq⟩
      cases o <;> cases ho
      exact hfailed e g n hq
    · rintro g n ⟨o, ho, hq⟩
      cases o <;> cases ho
      exact hexhausted g n hq
  · rintro r g n ⟨o, ho, hq⟩
    cases o with
    | done next =>
      cases ho
      exact hdone next.1 next.2 g n hq
    | thrown s =>
      cases ho
      apply (Gives.noteState frame "thrown").andThen
      apply Runs.pure
      exact hthrown s g n hq
    | failed e => cases ho
    | exhausted => cases ho

theorem Gives.drive {fuel : Nat} {state state' : StepState} {frame' : Frame}
    {R : Outcome Stepped → Feed → Nat → Prop} (hstate : state ≠ .finished)
    (ht : S.Gives depth f (ev.transition frame state) (frame', state') g)
    (hrest : S.Runs depth g (ev.drive fuel frame' state') R) :
    S.Runs depth f (ev.drive (fuel + 1) frame state) R := by
  apply Runs.drive hstate ht
  · rintro s g' n ⟨_, hs, -⟩
    cases hs
  · rintro e g' n ⟨_, he, -⟩
    cases he
  · rintro g' n ⟨_, he, -⟩
    cases he
  · rintro frame'' state'' g' n ⟨_, hnext, rfl, rfl, rfl⟩
    cases hnext
    simpa using hrest

theorem Gives.finish {fuel : Nat} :
    S.Gives depth f (ev.drive (fuel + 1) frame .finished) { frame } f :=
  (Gives.noteState frame StepState.finished.name).andThen (Gives.pure _)

theorem Runs.opening {fuel : Nat} {unit : Value} {rest : List Value}
    {R : Outcome Stepped → Feed → Nat → Prop} (hframe : frame.feed = S.feed)
    (hunits : f.units = unit :: rest) (hunit : unit ≠ .comma) (hclaim : S.Unclaiming f.peekNext)
    (h : S.Runs depth f (ev.drive fuel frame (.dispatch unit)) R) :
    S.Runs depth f (ev.drive (fuel + 2) frame .start) R := by
  have hstart : S.Gives depth f (ev.transition frame .start) (frame, .lookbackQuote unit) f :=
    (Gives.startStep hframe hunits hunit).andThen (Gives.pure _)
  have hquote : S.Gives depth f (ev.transition frame (.lookbackQuote unit))
      (frame, .dispatch unit) f := by
    simp only [Evaluator.transition]
    rw [hframe]
    exact (Gives.lookbackQuote unit hclaim).andThen (Gives.pure _)
  exact Gives.drive (by simp) hstart (Gives.drive (by simp) hquote h)

/-- A step takes its request not to look ahead, passes the checkpoint and comes to its unit. -/
theorem Runs.evalStep {unit : Value} {rest : List Value} {R : Outcome Stepped → Feed → Nat → Prop}
    (hframe : frame.feed = S.feed) (hunits : f.units = unit :: rest) (hunit : unit ≠ .comma)
    (hclaim : S.Unclaiming f.peekNext)
    (h : S.Runs depth { f with noLookahead := false }
      (ev.drive (2 * rest.length + 4)
        { frame with out := frame.out.markStale, noLookahead := f.noLookahead } (.dispatch unit)) R) :
    S.Runs depth f (ev.evalStep frame) R := by
  unfold Evaluator.evalStep
  rw [hframe]
  apply Gives.takeNoLookahead.andThen
  apply Gives.poll.andThen
  apply Gives.unitsLeft.andThen
  have hfuel : 2 * f.units.length + 4 = 2 * rest.length + 4 + 2 := by
    rw [hunits, List.length_cons]
    omega
  simp only [hfuel]
  exact Runs.opening rfl hunits hunit hclaim (hframe ▸ h)

/-! ### Units -/

/-- A unit gives a value without a look at anything else: an inert one itself, a quoted one what it
quotes. -/
inductive Literal : Value → Value → Prop where
  | inert {v : Value} (h : v.isInert = true) : Literal v v
  | quoted (v : Value) : Literal (.quoted v) v

theorem Literal.ne_comma {unit v : Value} (h : Literal unit v) : unit ≠ .comma := by
  rintro rfl
  cases h with
  | inert h => cases h

theorem Literal.action? {unit v : Value} (h : Literal unit v) : S.action? (some unit) = none := by
  cases h with
  | inert h =>
    cases unit with
    | word name => cases h
    | _ => rfl
  | quoted v => rfl

theorem Literal.ending {unit v : Value} (h : Literal unit v) : S.Ending (some unit) where
  known := by
    cases h with
    | inert h => cases unit <;> first | exact trivial | cases h
    | quoted v => exact trivial
  prefixed name a ha := by
    rw [h.action?] at ha
    cases ha

theorem Gives.dispatchLiteral {unit v : Value} (hframe : frame.feed = S.feed) (h : Literal unit v) :
    S.Gives depth f (ev.transition frame (.dispatch unit))
      ({ frame with out := frame.out.set v }, .postSwitch) f.advance := by
  obtain ⟨id, feed, out, fulfilling, noLookahead⟩ := frame
  subst hframe
  apply Gives.advance.andThen
  cases h with
  | inert h => cases unit <;> first | exact Gives.pure _ | cases h
  | quoted v => exact Gives.pure _

/-- A word calls the action that it names, if the action needs nothing on its left. -/
theorem Gives.dispatchWord {name : String} {id : Identity} {a : Action}
    (hframe : frame.feed = S.feed) (hknown : S.known name)
    (hname : S.names name = some (.action id a)) (ha : a.enfixed = false) :
    S.Gives depth f (ev.transition frame (.dispatch (.word name)))
      (frame, .processAction { action := a, label := name }) f.advance := by
  obtain ⟨_, feed, _, _, _⟩ := frame
  subst hframe
  apply Gives.advance.andThen
  have hresolve : S.Gives depth f.advance (Eval.resolve S.feed name) (.action id a) f.advance :=
    Gives.resolve hknown hname (by simp)
  have hseen : S.Gives depth f.advance (Eval.resolve S.feed name).catchFault
      (.ok (.action id a)) f.advance := by
    apply hresolve.catchFault
    rintro o g n ⟨_, rfl, rfl, rfl, rfl⟩
    exact ⟨_, rfl, rfl, rfl, rfl⟩
  have hvalue : S.Gives depth f.advance ((Eval.resolve S.feed name).mapFault fun e =>
      return e.nearUnit (Value.word name).mold) (.action id a) f.advance :=
    hseen.andThen (Gives.pure _)
  have hcall : ∀ frame, S.Gives depth f.advance (Evaluator.callByWord frame a name)
      (.processAction { action := a, label := name }) f.advance := by
    intro frame
    unfold Evaluator.callByWord
    simp only [ha, Bool.not_false, if_true]
    exact Gives.pure _
  exact hvalue.andThen ((hcall _).andThen (Gives.pure _))

/-! ### Lookahead -/

theorem Gives.closes (hframe : frame.feed = S.feed) (h : S.Ending f.peek) :
    S.Gives depth f (postSwitch frame) (frame, .finished) f := by
  obtain ⟨_, feed, _, _, _⟩ := frame
  subst hframe
  apply Gives.peek.andThen
  apply (Gives.wordAction? h.known).andThen
  cases haction : S.action? f.peek with
  | none => exact Gives.pure _
  | some entry =>
    obtain ⟨name, a⟩ := entry
    simp only [h.prefixed name a haction, Bool.not_false, Bool.true_or, if_true]
    exact Gives.pure _

section

variable {name : String} {a : Action}

/-- A step that must not look ahead leaves the action for the call around it. -/
theorem Gives.suppresses (hframe : frame.feed = S.feed) (h : S.Goes f.peek name a)
    (hlook : frame.noLookahead = true) :
    S.Gives depth f (postSwitch frame) ({ frame with noLookahead := false }, .finished) f := by
  obtain ⟨_, feed, _, _, _⟩ := frame
  subst hframe hlook
  apply Gives.peek.andThen
  apply (Gives.wordAction? h.known).andThen
  have hnote : S.Gives depth f (Eval.note (.lookaheadSuppressed name)) () f :=
    Gives.note fun _ => rfl
  simp only [h.action, h.enfixed, h.evaluates, Bool.not_true, Bool.or_self, if_false, if_true,
    Bool.false_eq_true]
  exact hnote.andThen (Gives.pure _)

theorem Gives.waits {v : Value} (hframe : frame.feed = S.feed) (h : S.Goes f.peek name a)
    (hlook : frame.noLookahead = false) (hout : frame.out = ⟨some v, false⟩)
    (hwaits : (frame.fulfilling && mustDefer a.deferral f.deferring) = true) :
    S.Gives depth f (postSwitch frame) (frame, .finished) { f with deferring := true } := by
  obtain ⟨_, feed, _, _, _⟩ := frame
  subst hframe hlook hout
  apply Gives.peek.andThen
  apply (Gives.wordAction? h.known).andThen
  simp only [h.action, h.enfixed, h.evaluates, Bool.not_true, Bool.or_self, Bool.false_and,
    if_false, Bool.false_eq_true]
  apply Gives.deferring.andThen
  simp only [hwaits, if_true]
  have hnote : S.Gives depth f (Eval.note (deferralEvent a.deferral name)) () f := by
    apply Gives.note
    intro m
    cases a.deferral <;> rfl
  exact hnote.andThen ((Gives.setDeferring true).andThen (Gives.pure _))

theorem Gives.takes {v : Value} (hframe : frame.feed = S.feed) (h : S.Goes f.peek name a)
    (hlook : frame.noLookahead = false) (hout : frame.out = ⟨some v, false⟩)
    (hwaits : (frame.fulfilling && mustDefer a.deferral f.deferring) = false) :
    S.Gives depth f (postSwitch frame) ({ frame with out := ⟨none, true⟩ },
      .processAction { action := a, label := name, left := some v })
      { f with deferring := false }.advance := by
  obtain ⟨_, feed, _, _, _⟩ := frame
  subst hframe hlook hout
  apply Gives.peek.andThen
  apply (Gives.wordAction? h.known).andThen
  simp only [h.action, h.enfixed, h.evaluates, Bool.not_true, Bool.or_self, Bool.false_and,
    if_false, Bool.false_eq_true]
  apply Gives.deferring.andThen
  simp only [hwaits, if_false, Bool.false_eq_true]
  exact (Gives.setDeferring false).andThen (Gives.advance.andThen (Gives.pure _))

end

/-! ### Expressions -/

theorem Gives.keep (suppressed : Bool) :
    S.Gives depth f (Eval.onlyIf suppressed (Eval.setNoLookahead S.feed)) () (f.kept suppressed) := by
  cases suppressed with
  | false => exact Gives.pure ()
  | true => exact Gives.setNoLookahead

theorem Runs.stepToVisible {fuel : Nat} {suppressed : Bool}
    {Q R : Outcome Stepped → Feed → Nat → Prop} (hframe : frame.feed = S.feed) (hstep : S.Runs depth (f.kept suppressed) (ev.step frame) Q)
    (hbreaks : Breaks Q R)
    (hdone : ∀ stepped g n, Q (.done stepped) g n → R (.done stepped) g n ∧
      (stepped.signal = none → stepped.frame.feed = S.feed ∧ stepped.frame.out.stale = false)) :
    S.Runs depth f (ev.stepToVisible suppressed (fuel + 1) frame) R := by
  unfold Evaluator.stepToVisible
  rw [hframe]
  apply (Gives.keep suppressed).andThen
  apply Runs.bind hstep hbreaks
  intro stepped g n hq
  obtain ⟨hr, hvisible⟩ := hdone stepped g n hq
  obtain ⟨frame', signal⟩ := stepped
  cases signal with
  | some s => exact Runs.pure hr
  | none =>
    obtain ⟨hfeed, hstale⟩ : frame'.feed = S.feed ∧ frame'.out.stale = false := hvisible rfl
    simp only [hfeed]
    apply Gives.atArgumentEnd.andThen
    simp only [hstale, Bool.not_false, Bool.true_or, if_true]
    exact Runs.pure hr

theorem Gives.stepInvisible {fuel : Nat} {suppressed : Bool} {frame' : Frame}
    {R : Outcome Stepped → Feed → Nat → Prop} (hframe : frame.feed = S.feed)
    (hstep : S.Gives depth (f.kept suppressed) (ev.step frame) { frame := frame' } g)
    (hframe' : frame'.feed = S.feed) (hstale : frame'.out.stale = true)
    (hmore : g.atArgumentEnd = false)
    (h : S.Runs depth g (ev.stepToVisible suppressed fuel frame') R) :
    S.Runs depth f (ev.stepToVisible suppressed (fuel + 1) frame) R := by
  unfold Evaluator.stepToVisible
  rw [hframe]
  apply (Gives.keep suppressed).andThen
  apply hstep.andThen
  simp only [hframe']
  apply Gives.atArgumentEnd.andThen
  simp only [hstale, hmore, Bool.not_true, Bool.or_self, if_false, Bool.false_eq_true]
  exact h

theorem Runs.evalExpression {fulfilling : Bool} {Q : Outcome Stepped → Feed → Nat → Prop}
    {R : Outcome (Option Value) → Feed → Nat → Prop} (hroom : depth < S.maxDepth)
    (hlimit : depth + 1 ≤ S.limit)
    (hstep : ∀ id, S.Runs (depth + 1) { f with noLookahead := false }
      (ev.stepToVisible f.noLookahead (f.units.length + 1) { id, feed := S.feed, fulfilling }) Q)
    (hbreaks : Breaks Q R) (hdone : ∀ stepped g n, Q (.done stepped) g n → R stepped.outcome g n) :
    S.Runs depth f (ev.evalExpression S.feed fulfilling) R := by
  apply Runs.withFrame hroom hlimit
  intro id
  have hexit : ∀ o : Outcome (Option Value), o.leave none = o := by
    intro o
    cases o <;> rfl
  simp only [hexit]
  have hvisible : S.Runs (depth + 1) f (ev.stepVisible { id, feed := S.feed, fulfilling }) Q := by
    apply Gives.takeNoLookahead.andThen
    apply Gives.unitsLeft.andThen
    exact hstep id
  apply Runs.bind hvisible hbreaks
  intro stepped g n hq
  have hr := hdone stepped g n hq
  obtain ⟨frame', signal⟩ := stepped
  cases signal with
  | some s =>
    exact Runs.signal (Q := fun o g' n' => R o g' (n + n')) hr
  | none => exact Runs.pure hr

/-- The step ended with a value. -/
structure Yields (S : Stage) (v : Value) (s : Stepped) : Prop where
  signal : s.signal = none
  feed : s.frame.feed = S.feed
  out : s.frame.out = ⟨some v, false⟩

theorem Finds.stepToVisible {fuel : Nat} {suppressed : Bool} {v : Value}
    (hframe : frame.feed = S.feed) (hstep : S.Finds depth (f.kept suppressed) (ev.step frame) (S.Yields v) g) :
    S.Finds depth f (ev.stepToVisible suppressed (fuel + 1) frame) (S.Yields v) g := by
  refine Runs.stepToVisible hframe ?_ (.refl _) ?_
  · exact hstep
  · rintro stepped g' n ⟨_, hs, hv, hg, hn⟩
    cases hs
    exact ⟨⟨stepped, rfl, hv, hg, hn⟩, fun _ => ⟨hv.feed, by rw [hv.out]⟩⟩

theorem Gives.evalExpression {fulfilling : Bool} {v : Value} (hroom : depth < S.maxDepth)
    (hlimit : depth + 1 ≤ S.limit)
    (hstep : ∀ id, S.Finds (depth + 1) { f with noLookahead := false }
      (ev.stepToVisible f.noLookahead (f.units.length + 1) { id, feed := S.feed, fulfilling })
      (S.Yields v) g) :
    S.Gives depth f (ev.evalExpression S.feed fulfilling) (some v) g := by
  apply Runs.evalExpression hroom hlimit hstep
  · exact ⟨by simp, by simp, by simp⟩
  · rintro stepped g' n ⟨_, hs, hv, rfl, rfl⟩
    cases hs
    refine ⟨some v, ?_, rfl, rfl, rfl⟩
    rw [Stepped.outcome, hv.signal, hv.out]
    rfl

/-- A step whose outcome is `o` comes to `r`: it ended with the value, it kept the signal, or it had no
result either. -/
def Comes (S : Stage) (o : Outcome Stepped) : Outcome (Option Value) → Prop
  | .done (some v) => ∃ s, o = .done s ∧ S.Yields v s
  | .done none => False
  | .thrown signal => ∃ s, o = .done s ∧ s.signal = some signal
  | .failed e => o = .failed e
  | .exhausted => o = .exhausted

theorem Comes.outcome {stepped : Stepped} {r : Outcome (Option Value)}
    (h : S.Comes (.done stepped) r) : stepped.outcome = r ∧
      (stepped.signal = none → stepped.frame.feed = S.feed ∧ stepped.frame.out.stale = false) := by
  match r, h with
  | .done (some v), ⟨_, hs, hv⟩ =>
    cases hs
    refine ⟨?_, fun _ => ⟨hv.feed, by rw [hv.out]⟩⟩
    rw [Stepped.outcome, hv.signal, hv.out]
    rfl
  | .thrown signal, ⟨_, hs, hsignal⟩ =>
    cases hs
    refine ⟨?_, fun hnone => ?_⟩
    · rw [Stepped.outcome, hsignal]
    · rw [hsignal] at hnone
      cases hnone
  | .failed e, h => cases h
  | .exhausted, h => cases h

theorem Runs.expression {fulfilling : Bool} {P : Outcome (Option Value) → Feed → Nat → Prop}
    (hroom : depth < S.maxDepth) (hlimit : depth + 1 ≤ S.limit) (hlook : f.noLookahead = false)
    (hstep : ∀ id, S.Runs (depth + 1) f (ev.step { id, feed := S.feed, fulfilling })
      fun o g n => ∃ r, P r g n ∧ S.Comes o r) :
    S.Runs depth f (ev.evalExpression S.feed fulfilling) P := by
  have hfeed : ({ f with noLookahead := false } : Feed) = f := by
    cases f
    cases hlook
    rfl
  apply Runs.evalExpression hroom hlimit (Q := fun o g n => ∃ r, P r g n ∧ S.Comes o r)
  · intro id
    rw [hlook, hfeed]
    refine Runs.stepToVisible rfl ?_ (.refl _) ?_
    · exact hstep id
    · rintro stepped g n ⟨r, hP, hcomes⟩
      exact ⟨⟨r, hP, hcomes⟩, hcomes.outcome.2⟩
  · constructor
    · rintro s g n ⟨r, hP, hcomes⟩
      match r, hcomes with
      | .done (some v), ⟨_, hs, _⟩ => cases hs
      | .thrown signal, ⟨_, hs, _⟩ => cases hs
      | .failed e, hs => cases hs
      | .exhausted, hs => cases hs
    · rintro e g n ⟨r, hP, hcomes⟩
      match r, hcomes with
      | .done (some v), ⟨_, hs, _⟩ => cases hs
      | .thrown signal, ⟨_, hs, _⟩ => cases hs
      | .failed e', hs =>
        cases hs
        exact hP
      | .exhausted, hs => cases hs
    · rintro g n ⟨r, hP, hcomes⟩
      match r, hcomes with
      | .done (some v), ⟨_, hs, _⟩ => cases hs
      | .thrown signal, ⟨_, hs, _⟩ => cases hs
      | .failed e, hs => cases hs
      | .exhausted, _ => exact hP
  · rintro stepped g n ⟨r, hP, hcomes⟩
    rw [hcomes.outcome.1]
    exact hP

theorem Gives.expression {fulfilling : Bool} {v : Value} (hroom : depth < S.maxDepth)
    (hlimit : depth + 1 ≤ S.limit) (hlook : f.noLookahead = false)
    (hstep : ∀ id,
      S.Finds (depth + 1) f (ev.step { id, feed := S.feed, fulfilling }) (S.Yields v) g) :
    S.Gives depth f (ev.evalExpression S.feed fulfilling) (some v) g := by
  apply Runs.expression hroom hlimit hlook
  intro id
  apply (hstep id).mono
  rintro o g' n ⟨s, rfl, hv, rfl, rfl⟩
  exact ⟨.done (some v), ⟨_, rfl, rfl, rfl, rfl⟩, s, rfl, hv⟩

/-! ### Literals -/

theorem Runs.literal {unit v : Value} {rest : List Value} {R : Outcome Stepped → Feed → Nat → Prop}
    (hframe : frame.feed = S.feed) (hunit : Literal unit v) (hunits : f.units = unit :: rest)
    (hclaim : S.Unclaiming f.peekNext)
    (h : S.Runs depth { f with units := rest, lookback := some unit, noLookahead := false }
      (ev.drive (2 * rest.length + 3)
        { frame with out := ⟨some v, false⟩, noLookahead := f.noLookahead } .postSwitch) R) :
    S.Runs depth f (ev.evalStep frame) R := by
  apply Runs.evalStep hframe hunits hunit.ne_comma hclaim
  refine Gives.drive (by simp) (Gives.dispatchLiteral ?_ hunit) ?_
  · exact hframe
  · have hunits' : { f with noLookahead := false }.units = unit :: rest := hunits
    rw [Feed.advance_cons hunits']
    exact h

/-- A step that must not look ahead is over when it has a value, whatever follows. -/
theorem Gives.stopsShort (hframe : frame.feed = S.feed) (hlook : frame.noLookahead = true)
    (hclaim : S.Unclaiming f.peek) :
    ∃ noLookahead, S.Gives depth f (postSwitch frame) ({ frame with noLookahead }, .finished) f := by
  rcases hclaim.ending_or_goes with hending | ⟨name, a, hgoes⟩
  · exact ⟨frame.noLookahead, Gives.closes hframe hending⟩
  · exact ⟨false, Gives.suppresses hframe hgoes hlook⟩

theorem Finds.literalAlone {unit v : Value} {rest : List Value} (hframe : frame.feed = S.feed)
    (hunit : Literal unit v) (hunits : f.units = unit :: rest) (hlook : f.noLookahead = true)
    (hclaim : S.Unclaiming rest.head?) :
    S.Finds depth f (ev.evalStep frame) (S.Yields v)
      { f with units := rest, lookback := some unit, noLookahead := false } := by
  have hunclaimed : S.Unclaiming f.peekNext := by
    rw [Feed.peekNext_cons hunits]
    exact hclaim
  have hstops : ∃ noLookahead,
      S.Gives depth { f with units := rest, lookback := some unit, noLookahead := false }
        (postSwitch { frame with out := ⟨some v, false⟩, noLookahead := f.noLookahead })
        ({ frame with out := ⟨some v, false⟩, noLookahead }, .finished)
        { f with units := rest, lookback := some unit, noLookahead := false } := by
    apply Gives.stopsShort
    · exact hframe
    · exact hlook
    · exact hclaim
  obtain ⟨noLookahead, hswitch⟩ := hstops
  apply Runs.literal hframe hunit hunits hunclaimed
  apply Gives.drive (by simp) hswitch
  apply Gives.finish.mono
  rintro o g n ⟨_, rfl, rfl, rfl, rfl⟩
  exact ⟨_, rfl, ⟨rfl, hframe, rfl⟩, rfl, rfl⟩

theorem Gives.literalOperand {patience nesting : Nat} {unit v : Value} {rest : List Value}
    (hroom : depth < S.maxDepth) (hlimit : depth + 1 ≤ S.limit) (hunit : Literal unit v)
    (hunits : f.units = unit :: rest) (hlook : f.noLookahead = true)
    (hclaim : S.Unclaiming rest.head?) :
    S.Gives depth f (Evaluator.evalExpression ⟨stepWithin patience (nesting + 1), patience⟩ S.feed
      true) (some v) { f with units := rest, lookback := some unit, noLookahead := false } := by
  apply Gives.evalExpression hroom hlimit
  intro id
  rw [hlook]
  apply Finds.stepToVisible rfl
  exact Finds.literalAlone rfl hunit hunits rfl hclaim

end Stage

end Homoicon
