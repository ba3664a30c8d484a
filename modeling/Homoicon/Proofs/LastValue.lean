import Homoicon.Proofs.Progress

/-!
# The value of a feed

One output cell serves a whole feed.  A step sets it, marks it stale, or empties it when an enfixed
action takes the value as its left operand.  A step that produces nothing at all leaves the value
before it in place.  A step whose value an enfixed action swallows, giving nothing back, is as
invisible but leaves nothing behind: what came before it is lost.
-/

namespace Homoicon

/-- The outputs of a frame after each state of a step, the latest first. -/
abbrev Passage := List OutCell

namespace Passage

def value? (p : Passage) : Option Value := p.head?.bind OutCell.get?

/-- Whether there was a value at some state of the step. -/
def produces (p : Passage) : Bool := p.any fun c => !c.stale

/-- An invisible step that had a value on its way. -/
def swallows (p : Passage) : Bool := p.value?.isNone && p.produces

/-- What is left after a step, if `last` was left before it. -/
def keep (last : Option Value) (p : Passage) : Option Value :=
  if p.swallows then none else p.value?.or last

/-- The value of the last visible step; the latest step comes first. -/
def lastVisible (ps : List Passage) : Option Value := ps.findSome? value?

/-- The value of the last visible step after the last one that swallowed its value. -/
def lastKept (ps : List Passage) : Option Value :=
  lastVisible (ps.takeWhile fun p => !p.swallows)

theorem lastKept_cons (p : Passage) (ps : List Passage) :
    lastKept (p :: ps) = p.keep (lastKept ps) := by
  unfold lastKept keep lastVisible
  cases hs : p.swallows with
  | true => simp [hs]
  | false => cases hv : p.value? <;> simp [hs, hv]

theorem lastKept_eq_lastVisible {ps : List Passage} (h : ∀ p ∈ ps, p.swallows = false) :
    lastKept ps = lastVisible ps := by
  induction ps with
  | nil => rfl
  | cons p ps ih =>
    obtain ⟨hp, hps⟩ := List.forall_mem_cons.1 h
    rw [lastKept_cons, ih hps, keep, hp, lastVisible, lastVisible]
    cases hv : p.value? <;> simp [hv]

theorem lastVisible_eq_none_iff {ps : List Passage} :
    lastVisible ps = none ↔ ∀ p ∈ ps, p.value? = none :=
  List.findSome?_eq_none_iff

end Passage

theorem Eval.Returns.catchSignal {α : Type} {x : Eval α} {P : α → Prop} (hx : x.Returns P) :
    x.catchSignal.Returns fun r => ∀ a, r = .ok a → P a := by
  rintro m r m' hr a rfl
  rcases Eval.catchSignal_eq_done hr with ⟨_, ⟨⟩, ha⟩ | ⟨_, ⟨⟩, -⟩
  exact hx m a m' ha

/-- A value was produced, or nothing was. -/
def StepState.IsSettled (s : StepState) : Prop := s = .postSwitch ∨ s = .finished

namespace Evaluator

variable {ev : Evaluator} {frame : Frame} {state : StepState} {m : Machine}

/-! ### Steps with their passages -/

/-- Runs through the states of a step like `drive`; `seen` are the outputs so far. -/
def driveSeen (ev : Evaluator) : Nat → Frame → StepState → Passage → Eval (Stepped × Passage)
  | 0, _, _, _ => Eval.exhaust
  | fuel + 1, frame, state, seen => do
    noteState frame state.name
    match state with
    | .finished => return ({ frame }, seen)
    | state =>
      match ← (ev.transition frame state).catchSignal with
      | .ok (frame, state) => ev.driveSeen fuel frame state (frame.out :: seen)
      | .error s =>
        noteState frame "thrown"
        return ({ frame, signal := some s }, seen)

def evalStepSeen (ev : Evaluator) (frame : Frame) : Eval (Stepped × Passage) := do
  let noLookahead ← Eval.takeNoLookahead frame.feed
  let frame := { frame with out := frame.out.markStale, noLookahead }
  match ← Eval.poll with
  | some s => return ({ frame, signal := some s }, [])
  | none =>
    let units ← Eval.unitsLeft frame.feed
    ev.driveSeen (2 * units + 4) frame .start []

/-- Steps a frame until its feed ends; `passages` are those of the steps so far, the latest first. -/
def surveyToEnd (ev : Evaluator) : Nat → Frame → List Passage → Eval (List Passage)
  | 0, frame, passages => do
    if ← Eval.atEnd frame.feed then return passages else Eval.exhaust
  | fuel + 1, frame, passages => do
    if ← Eval.atEnd frame.feed then return passages
    else
      let (stepped, passage) ← ev.evalStepSeen frame
      let frame ← stepped.frameOrThrow
      ev.surveyToEnd fuel frame (passage :: passages)

/-- The passages of the steps of a feed that is run to its end, the latest first. -/
def surveyFeed (ev : Evaluator) (feed : FeedId) : Eval (List Passage) :=
  withFrame feed none fun frame => do
    let units ← Eval.unitsLeft feed
    ev.surveyToEnd units frame []

def driveSeenOn (ev : Evaluator) (fuel : Nat) (frame : Frame) (seen : Passage) :
    Except Signal (Frame × StepState) → Eval (Stepped × Passage)
  | .ok (frame, state) => ev.driveSeen fuel frame state (frame.out :: seen)
  | .error s => do
    noteState frame "thrown"
    return ({ frame, signal := some s }, seen)

theorem driveSeen_of_ne (hne : state ≠ .finished) (fuel : Nat) (seen : Passage) :
    ev.driveSeen (fuel + 1) frame state seen =
      noteState frame state.name >>= fun _ =>
        (ev.transition frame state).catchSignal >>= ev.driveSeenOn fuel frame seen := by
  cases state with
  | finished => exact absurd rfl hne
  | _ => rfl

theorem drive_eq_seen (fuel : Nat) (seen : Passage) :
    ev.drive fuel frame state = ev.driveSeen fuel frame state seen >>= fun r => pure r.1 := by
  induction fuel generalizing frame state seen with
  | zero => rfl
  | succ fuel ih =>
    by_cases hfin : state = .finished
    · subst hfin
      rfl
    · rw [drive_of_ne hfin, driveSeen_of_ne hfin, Eval.bind_assoc]
      refine congrArg _ (funext fun _ => ?_)
      rw [Eval.bind_assoc]
      refine congrArg _ (funext fun r => ?_)
      cases r with
      | ok next => exact ih _
      | error s => rfl

theorem evalStep_eq_seen :
    ev.evalStep frame = ev.evalStepSeen frame >>= fun r => pure r.1 := by
  unfold evalStep evalStepSeen
  rw [Eval.bind_assoc]
  refine bind_congr fun noLookahead => ?_
  rw [Eval.bind_assoc]
  refine bind_congr fun s? => ?_
  cases s? with
  | some s => rfl
  | none =>
    show _ = (Eval.unitsLeft _ >>= _) >>= _
    rw [Eval.bind_assoc]
    exact bind_congr fun units => drive_eq_seen _ _

/-! ### What becomes of the output -/

/-- What a transition does to the output. -/
inductive Turns (c : OutCell) (s : StepState) : OutCell → StepState → Prop
  | same {s' : StepState} (h : s.IsSettled → s' = .finished) : Turns c s c s'
  | set (v : Value) : Turns c s (c.set v) .postSwitch
  | markStale {p : PendingCall} (h : s = .processAction p) : Turns c s c.markStale .postSwitch
  | taken (h : s = .postSwitch) (p : PendingCall) : Turns c s c.taken (.processAction p)

theorem produced_turns (h : ¬state.IsSettled) (v : Option Value) :
    Turns frame.out state (produced frame v).1.out (produced frame v).2 := by
  cases v with
  | none => exact .same fun hs => absurd hs h
  | some v => exact .set v

theorem dispatch_turns {unit : Value} : (ev.dispatch frame unit).Returns fun r =>
    Turns frame.out (.dispatch unit) r.1.out r.2 := by
  have hs : ¬(StepState.dispatch unit).IsSettled := by rintro (h | h) <;> cases h
  have hsame : ∀ {s'}, Turns frame.out (.dispatch unit) frame.out s' := .same fun h => absurd h hs
  refine .after fun _ => ?_
  split
  · exact .pure (produced_turns hs _)
  · refine .after fun v => ?_
    split
    · exact .after fun _ => .pure hsame
    · exact .pure (produced_turns hs _)
  · exact .after fun _ => .pure (produced_turns hs _)
  · exact .after fun _ => .after fun _ => .after fun _ => .pure (produced_turns hs _)
  · exact .after fun _ => .pure (produced_turns hs _)
  · exact .after fun _ => .after fun _ => .pure (produced_turns hs _)
  · refine .after fun r => ?_
    cases r with
    | call p => exact .pure hsame
    | value v => exact .pure (produced_turns hs _)
  · exact .after fun _ => .pure (produced_turns hs _)
  · exact .after fun _ => .after fun _ => .pure (produced_turns hs _)
  · exact .pure hsame
  · exact .pure hsame
  · exact .pure (produced_turns hs _)

theorem postSwitch_turns : (postSwitch frame).Returns fun r =>
    Turns frame.out .postSwitch r.1.out r.2 := by
  refine .after fun next => .after fun found => ?_
  split
  · exact .pure (.same fun _ => rfl)
  · split
    · exact .pure (.same fun _ => rfl)
    · split
      · exact .after fun _ => .pure (.same fun _ => rfl)
      · split
        · exact .pure (.same fun _ => rfl)
        · refine .after fun deferring => ?_
          split
          · exact .after fun _ => .after fun _ => .pure (.same fun _ => rfl)
          · exact .after fun _ => .after fun _ => .pure (.taken rfl _)

theorem transition_turns : (ev.transition frame state).Returns fun r =>
    Turns frame.out state r.1.out r.2 := by
  cases state with
  | start => exact .after fun _ => .pure (.same fun h => by rcases h with h | h <;> cases h)
  | lookbackQuote unit =>
    exact .after fun _ => .pure (.same fun h => by rcases h with h | h <;> cases h)
  | dispatch unit => exact dispatch_turns
  | processAction p =>
    refine .after fun v => ?_
    cases v with
    | none => exact .pure (.markStale rfl)
    | some v => exact .pure (.set v)
  | postSwitch => exact postSwitch_turns
  | finished => exact .pure (.same fun _ => rfl)

/-- The output in the course of a step, which began with `last` left behind: untouched until a value
is produced, then the value, or nothing once it was handed over. -/
structure Carries (last : Option Value) (seen : Passage) (s : StepState) (c : OutCell) : Prop where
  head : seen = [] ∨ seen.head? = some c
  idle : seen.produces = false → c = ⟨last, true⟩
  busy : seen.produces = true → c = ⟨none, true⟩ ∨ ∃ v, c = ⟨some v, false⟩ ∧ s.IsSettled

theorem Carries.turn {last : Option Value} {seen : Passage} {s s' : StepState} {c c' : OutCell}
    (h : Carries last seen s c) (ht : Turns c s c' s') : Carries last (c' :: seen) s' c' := by
  have hcons : Passage.produces (c' :: seen) = (!c'.stale || seen.produces) := rfl
  cases hseen : seen.produces with
  | false =>
    obtain rfl := h.idle hseen
    rw [hseen] at hcons
    cases ht with
    | set v =>
      refine ⟨.inr rfl, fun hp => ?_, fun _ => .inr ⟨v, rfl, .inl rfl⟩⟩
      cases hcons.symm.trans hp
    | _ => exact ⟨.inr rfl, fun _ => rfl, fun hp => by cases hcons.symm.trans hp⟩
  | true =>
    rw [hseen, Bool.or_true] at hcons
    refine ⟨.inr rfl, fun hp => by simp [hcons] at hp, fun _ => ?_⟩
    rcases h.busy hseen with rfl | ⟨v, rfl, hsettled⟩
    · cases ht with
      | set v => exact .inr ⟨v, rfl, .inl rfl⟩
      | _ => exact .inl rfl
    · cases ht with
      | same hfin => exact .inr ⟨v, rfl, .inr (hfin hsettled)⟩
      | set v => exact .inr ⟨v, rfl, .inl rfl⟩
      | markStale hs =>
        -- a call begins with an output that was taken or is still as the step found it
        subst hs
        rcases hsettled with hs | hs <;> cases hs
      | taken hs p => exact .inl rfl

theorem Carries.last_eq {last : Option Value} {seen : Passage} {s : StepState} {c : OutCell}
    (h : Carries last seen s c) : c.last = seen.keep last := by
  cases hseen : seen.produces with
  | false =>
    obtain rfl := h.idle hseen
    have hvalue : seen.value? = none := by
      rcases h.head with rfl | hhead
      · rfl
      · rw [Passage.value?, hhead]
        rfl
    simp [Passage.keep, Passage.swallows, hvalue, hseen]
  | true =>
    have hhead : seen.head? = some c := by
      rcases h.head with rfl | hhead
      · cases hseen
      · exact hhead
    rcases h.busy hseen with rfl | ⟨v, rfl, -⟩
    · have hvalue : seen.value? = none := by
        rw [Passage.value?, hhead]
        rfl
      simp [Passage.keep, Passage.swallows, hvalue, hseen]
    · have hvalue : seen.value? = some v := by
        rw [Passage.value?, hhead]
        rfl
      simp [Passage.keep, Passage.swallows, hvalue]

theorem driveSeen_keeps {last : Option Value} {fuel : Nat} {seen : Passage}
    (h : Carries last seen state frame.out) :
    (ev.driveSeen fuel frame state seen).Returns fun r =>
      r.1.signal = none → r.1.frame.out.last = r.2.keep last := by
  induction fuel generalizing frame state seen with
  | zero => rintro _ _ _ ⟨⟩
  | succ fuel ih =>
    by_cases hfin : state = .finished
    · subst hfin
      exact .after fun _ => .pure fun _ => h.last_eq
    · rw [driveSeen_of_ne hfin]
      refine .after fun _ => .bind transition_turns.catchSignal fun r hr => ?_
      cases r with
      | ok next => exact ih (h.turn (hr next rfl))
      | error s => exact .after fun _ => .pure fun hs => by cases hs

theorem evalStepSeen_keeps : (ev.evalStepSeen frame).Returns fun r =>
    r.1.signal = none → r.1.frame.out.last = r.2.keep frame.out.last := by
  refine .after fun noLookahead => .after fun s? => ?_
  cases s? with
  | some s => exact .pure fun hs => by cases hs
  | none =>
    refine .after fun units => driveSeen_keeps ⟨.inl rfl, fun _ => rfl, fun h => by cases h⟩

/-! ### Whole feeds -/

theorem stepToEnd_eq_survey {patience : Nat} {inner : Evaluator} (fuel : Nat) {ps : List Passage}
    (hlast : frame.out.last = Passage.lastKept ps) (m : Machine) :
    (Evaluator.stepToEnd ⟨inner.evalStep, patience⟩ fuel frame >>= fun f => pure f.out.last) m =
      (inner.surveyToEnd fuel frame ps >>= fun ps => pure (Passage.lastKept ps)) m := by
  induction fuel generalizing frame ps m with
  | zero =>
    simp only [stepToEnd, surveyToEnd, Eval.bind_assoc, Eval.run_bind (Eval.atEnd frame.feed)]
    rcases Eval.atEnd frame.feed m with ⟨_ | _ | _ | _, m₁⟩
    · dsimp only
      split
      · exact congrArg (fun v => (Outcome.done v, m₁)) hlast
      · rfl
    all_goals rfl
  | succ fuel ih =>
    simp only [stepToEnd, surveyToEnd, Eval.bind_assoc, Eval.run_bind (Eval.atEnd frame.feed)]
    rcases Eval.atEnd frame.feed m with ⟨_ | _ | _ | _, m₁⟩
    · dsimp only
      split
      · exact congrArg (fun v => (Outcome.done v, m₁)) hlast
      · -- one step, with its passage: what it leaves is what `keep` makes of the passages so far
        rw [evalStep_eq_seen]
        simp only [Eval.bind_assoc, Eval.run_bind (inner.evalStepSeen frame)]
        rcases hstep : inner.evalStepSeen frame m₁ with ⟨⟨stepped, p⟩ | _ | _ | _, m₂⟩
        · have hkeeps := evalStepSeen_keeps m₁ _ m₂ hstep
          dsimp only at hkeeps ⊢
          show (stepped.frameOrThrow >>= fun f =>
              Evaluator.stepToEnd ⟨inner.evalStep, patience⟩ fuel f >>= fun f =>
                pure f.out.last) m₂ =
            (stepped.frameOrThrow >>= fun f => inner.surveyToEnd fuel f (p :: ps) >>= fun ps =>
                pure (Passage.lastKept ps)) m₂
          cases hs : stepped.signal with
          | some s =>
            have hthrow : stepped.frameOrThrow = .signal s := by simp only [Stepped.frameOrThrow, hs]
            rw [hthrow]
            rfl
          | none =>
            have hthrow : stepped.frameOrThrow = pure stepped.frame := by
              simp only [Stepped.frameOrThrow, hs]
            have hlast' : stepped.frame.out.last = Passage.lastKept (p :: ps) := by
              rw [hkeeps hs, hlast, Passage.lastKept_cons]
            rw [hthrow]
            exact ih hlast' m₂
        all_goals rfl
    all_goals rfl

theorem runFeed_eq_survey (patience nesting : Nat) (feed : FeedId) (m : Machine) :
    Evaluator.runFeed ⟨stepWithin patience (nesting + 1), patience⟩ feed m =
      (Evaluator.surveyFeed ⟨stepWithin patience nesting, patience⟩ feed >>= fun ps =>
        pure (Passage.lastKept ps)) m := by
  let inner : Evaluator := ⟨stepWithin patience nesting, patience⟩
  let survey (id : FrameId) : Eval (List Passage) := do
    let units ← Eval.unitsLeft feed
    inner.surveyToEnd units { id, feed } []
  let body (id : FrameId) : Eval (Option Value) := do
    let units ← Eval.unitsLeft feed
    let frame ← Evaluator.stepToEnd ⟨inner.evalStep, patience⟩ units { id, feed }
    return frame.out.last
  have hbody : ∀ id m, body id m = (survey id >>= fun ps => pure (Passage.lastKept ps)) m :=
    fun id m => stepToEnd_eq_survey _ rfl m
  show (Eval.inFrame none body .done).run m =
    (Eval.inFrame none survey fun ps => pure (Passage.lastKept ps)).run m
  simp only [Eval.run]
  split
  · rfl
  · rw [hbody, Eval.run_bind]
    rcases survey m.nextFrame (m.enter none) with ⟨_ | _ | _ | _, m'⟩ <;> rfl

/-- The value of a feed, for every feed and machine.  It is the value of the last visible step, and
there is none exactly when every step was invisible, provided that no invisible step had its value
swallowed by an enfixed action; such a step loses all that came before it. -/
theorem runFeed_lastKept (patience nesting : Nat) (feed : FeedId) (m m' : Machine)
    (v : Option Value)
    (h : Evaluator.runFeed ⟨stepWithin patience (nesting + 1), patience⟩ feed m = (.done v, m')) :
    ∃ ps, Evaluator.surveyFeed ⟨stepWithin patience nesting, patience⟩ feed m = (.done ps, m') ∧
      v = Passage.lastKept ps ∧
      ((∀ p ∈ ps, p.swallows = false) →
        v = Passage.lastVisible ps ∧ (v = none ↔ ∀ p ∈ ps, p.value? = none)) := by
  rw [runFeed_eq_survey] at h
  obtain ⟨ps, m₁, hps, hv⟩ := Eval.run_bind_eq_done.1 h
  cases hv
  refine ⟨ps, hps, rfl, fun hall => ?_⟩
  rw [Passage.lastKept_eq_lastVisible hall]
  exact ⟨rfl, Passage.lastVisible_eq_none_iff⟩

/-- An enfixed action that discards its left operand and gives nothing back. -/
def discard : Action :=
  { label := some "elide"
    params := [{ name := "discarded", role := .normal }]
    signature := 0
    dispatcher := .native { name := "elide", spec := "discarded", operation := .access .elide }
    exemplar := none
    enfixed := true
    deferral := .none
    description := none }

/-- The code `10 5 el`, where `el` is `discard`. -/
def discarding : Machine :=
  { Machine.new {} with
    scopes := { cells := #[{ bindings := [("el", .action 0 discard)] }] }
    feeds := #[{ units := [.integer 10, .integer 5, .word "el"], scope := 0 }] }

/-- The second step is invisible and yet the value of the first one is lost. -/
theorem runFeed_lastKept_discarding : ∃ v m' ps,
    Evaluator.runFeed ⟨stepWithin 1 2, 1⟩ 0 discarding = (.done v, m') ∧
      Evaluator.surveyFeed ⟨stepWithin 1 1, 1⟩ 0 discarding = (.done ps, m') ∧
      ps.map (fun p => p.value?.map Value.mold) = [none, some "10"] ∧
      (Passage.lastVisible ps).map Value.mold = some "10" ∧ v = none := by
  have hrun : (Evaluator.runFeed ⟨stepWithin 1 2, 1⟩ 0 discarding).1.result?.map
      (fun v => v.map Value.mold) = some none := by
    decide +kernel
  have hsurvey : (Evaluator.surveyFeed ⟨stepWithin 1 1, 1⟩ 0 discarding).1.result?.map
      (fun ps => (ps.map fun p => p.value?.map Value.mold,
        (Passage.lastVisible ps).map Value.mold)) = some ([none, some "10"], some "10") := by
    decide +kernel
  obtain ⟨v, hv, hmold⟩ := Option.map_eq_some_iff.1 hrun
  have hdone := Eval.run_of_result? hv
  obtain ⟨ps, hps, -, -⟩ := runFeed_lastKept 1 1 0 discarding _ v hdone
  rw [hps] at hsurvey
  obtain ⟨hvalues, hlast⟩ := Prod.mk.inj (Option.some.inj hsurvey)
  exact ⟨v, _, ps, hdone, hps, hvalues, hlast, Option.map_eq_none_iff.1 hmold⟩

end Evaluator

end Homoicon
